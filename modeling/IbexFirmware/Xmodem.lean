/-
The XModem-CRC protocol (`lib/rescue/xmodem.c`), sender and receiver.

Both sides are functions of what they hear. A `Line` is the bytes a side will receive,
with `none` where it listens until the timeout. The receiver takes one frame off its
line. The sender hears only single bytes, and what it sends is the list of its frames.

The two meet in `Exchanges`: each frame arrives intact or garbled in a way the CRC-16
detects, and the sender hears an acknowledgement only for a frame that was accepted. Any
other byte may be heard at any time, so an acknowledgement may be damaged, and then the
receiver is a block ahead. `InSync` says that this is as far as the two counters get
apart, and modulo 256 that is enough to tell the two blocks from one another.
-/
import IbexFirmware.RomError

set_option autoImplicit false

namespace IbexFirmware.Xmodem

open Bytes

/-! ## Constants and the line -/

def kXModemCrc16 : u8 := 0x43
def kXModemSoh : u8 := 0x01
def kXModemStx : u8 := 0x02
def kXModemEof : u8 := 0x04
def kXModemAck : u8 := 0x06
def kXModemNak : u8 := 0x15
def kXModemCancel : u8 := 0x18
def kXModemPoly : u16 := 0x1021
def kXModemMaxErrors : ℕ := 2

/-- What a side receives: bytes that arrive in time, and `none` where a timeout runs out.
After the end of the list it is silent. -/
abbrev Line := List (Option u8)

/-- Read up to `len` bytes. -/
def xmodem_read : ℕ → Line → List u8 × Line
  | 0, line => ([], line)
  | _ + 1, [] => ([], [])
  | _ + 1, none :: rest => ([], rest)
  | len + 1, some ch :: rest =>
      let (data, rest) := xmodem_read len rest
      (ch :: data, rest)

/-! ## CRC-16 -/

/-- One of the eight shifts for a byte. -/
def crc16_shift (crc : u16) : u16 :=
  if crc &&& 0x8000 ≠ 0 then (crc <<< 1) ^^^ kXModemPoly else crc <<< 1

def crc16_byte (crc : u16) (byte : u8) : u16 :=
  crc16_shift^[8] (crc ^^^ (byte.setWidth 16 <<< 8))

def crc16 (crc : u16) (buf : List u8) : u16 := buf.foldl crc16_byte crc

/-- The CRC of a block that is still to be padded. -/
def crc16_block (buf : List u8) (block_sz : ℕ) : u16 :=
  (List.replicate (block_sz - buf.length) (0 : u8)).foldl (fun crc pad => crc16 crc [pad])
    (crc16 0 buf)

/-! ## The receiver -/

/-- What `xmodem_recv_frame` returns, stores and sends, and the line behind it. `rxlen`
and `unknown_rx` are 0 where the function does not write them. -/
structure Received where
  result : RomError
  data : List u8
  rxlen : ℕ
  unknown_rx : u8
  tx : List u8
  rest : Line

/-- A return without data. -/
def Received.error (result : RomError) (data : List u8) (rest : Line) : Received :=
  ⟨result, data, 0, 0, [], rest⟩

def xmodem_recv_frame (frame : u32) (len_available : ℕ) (line : Line) : Received :=
  match xmodem_read 1 line with
  | ([], rest) => .error .kErrorXModemTimeoutStart [] rest
  | (ch :: _, rest) =>
      if ch = kXModemStx ∨ ch = kXModemSoh then
        let len := if ch = kXModemStx then 1024 else 128
        if len_available < len then .error .kErrorXModemBadLength [] rest
        else
          match xmodem_read 2 rest with
          | ([block, inverse], rest) =>
              let cancel := block ≠ frame.setWidth 8 ∨ block ≠ 255 - inverse
              let (data, rest) := xmodem_read len rest
              if data.length ≠ len then .error .kErrorXModemTimeoutData data rest
              else
                match xmodem_read 2 rest with
                | ([hi, lo], rest) =>
                    if cancel then
                      { Received.error .kErrorXModemCancel data rest with
                        tx := [kXModemCancel, kXModemCancel] }
                    else if hi.setWidth 16 <<< 8 ||| lo.setWidth 16 ≠ crc16 0 data then
                      .error .kErrorXModemCrc data rest
                    else { Received.error .kErrorOk data rest with rxlen := len }
                | (_, rest) => .error .kErrorXModemTimeoutCrc data rest
          | (_, rest) => .error .kErrorXModemTimeoutPacket [] rest
      else if ch = kXModemEof then .error .kErrorXModemEndOfFile [] rest
      else { Received.error .kErrorXModemUnknown [] rest with unknown_rx := ch }

/-! ## The sender -/

def xmodem_send_start : ℕ → ℕ → Line → RomError × Line
  | 0, _, line => (.kErrorXModemTimeoutStart, line)
  | retries + 1, cancels, line =>
      match xmodem_read 1 line with
      | ([], rest) => xmodem_send_start retries cancels rest
      | (ch :: _, rest) =>
          if ch = kXModemCrc16 then (.kErrorOk, rest)
          else if ch = kXModemNak then (.kErrorXModemProtocol, rest)
          else if ch = kXModemCancel then
            if 2 ≤ cancels + 1 then (.kErrorXModemCancel, rest)
            else xmodem_send_start retries (cancels + 1) rest
          else xmodem_send_start retries cancels rest

/-- What a sender returns, the frames it has sent, and the line behind it. -/
structure Sent where
  result : RomError
  frames : List (List u8)
  rest : Line

/-- The block size with `len` bytes still to send. -/
def block_sz (len : ℕ) : ℕ := if len < 1024 then 128 else 1024

/-- The next block of the remaining data, padded. -/
def padded_block (p : List u8) : List u8 :=
  let chunk := p.take (block_sz p.length)
  chunk ++ List.replicate (block_sz p.length - chunk.length) 0

/-- The frame of the next block. -/
def block_frame (block : u32) (p : List u8) : List u8 :=
  let chunk := p.take (block_sz p.length)
  let crc := crc16_block chunk (block_sz p.length)
  (if block_sz p.length = 128 then kXModemSoh else kXModemStx) ::
    block.setWidth 8 :: (255 - block.setWidth 8) ::
      (padded_block p ++ [(crc >>> 8).setWidth 8, (crc &&& 0xff).setWidth 8])

/-- The two loops of `xmodem_send_data`: the frame of `block` is sent, and again after
every answer but an acknowledgement, which leads to the next. -/
def xmodem_send_data (max_errors : ℕ) (line : Line) (p : List u8) (block : u32)
    (errors cancels : ℕ) : Sent :=
  if p = [] then ⟨.kErrorOk, [], line⟩
  else
    let frame := block_frame block p
    match line with
    | [] => ⟨.kErrorXModemTimeoutAck, [frame], []⟩
    | none :: rest => ⟨.kErrorXModemTimeoutAck, [frame], rest⟩
    | some ch :: rest =>
        if ch = kXModemAck then
          let sent := xmodem_send_data max_errors rest (p.drop (block_sz p.length)) (block + 1)
            errors cancels
          { sent with frames := frame :: sent.frames }
        else if ch = kXModemCancel ∧ 2 ≤ cancels + 1 then ⟨.kErrorXModemCancel, [frame], rest⟩
        else
          let (errors, cancels) :=
            if ch = kXModemCancel then (errors, cancels + 1) else (errors + 1, cancels)
          if max_errors ≤ errors then ⟨.kErrorXModemTooManyErrors, [frame], rest⟩
          else
            let sent := xmodem_send_data max_errors rest p block errors cancels
            { sent with frames := frame :: sent.frames }

/-- The answer to the end of file does not matter. -/
def xmodem_send_finish (line : Line) : RomError × Line := (.kErrorOk, (xmodem_read 1 line).2)

def xmodem_send (data : List u8) (line : Line) : Sent :=
  let (error, line) := xmodem_send_start 30 0 line
  if error ≠ .kErrorOk then ⟨error, [], line⟩
  else
    let sent := xmodem_send_data kXModemMaxErrors line data 1 0 0
    if sent.result ≠ .kErrorOk then sent
    else
      let (error, line) := xmodem_send_finish sent.rest
      ⟨error, sent.frames, line⟩

/-! ## The two sides together -/

/-- The blocks of `data`: 1 KiB while there is that much, then 128 bytes, the last one
padded with zeros. -/
def blocks (data : List u8) : List (List u8) :=
  if data = [] then []
  else padded_block data :: blocks (data.drop (block_sz data.length))
  termination_by data.length
  decreasing_by
    have hpos : 0 < data.length := List.length_pos_iff.mpr ‹_›
    rw [List.length_drop]
    unfold block_sz
    split_ifs <;> omega

/-- The receiving side as `protocol` runs it: the number of the next frame, the payloads
accepted, and whether it has given up. -/
structure Receiver where
  frame : u32
  accepted : List (List u8)
  stopped : Bool

def Receiver.start : Receiver := ⟨1, [], false⟩

/-- What the receiver makes of what arrives, with room for `len_available` bytes. -/
def Receiver.receive (r : Receiver) (len_available : ℕ) (line : List u8) : Received :=
  xmodem_recv_frame r.frame len_available (line.map some)

def Receiver.Accepts (r : Receiver) (len_available : ℕ) (line : List u8) : Prop :=
  r.stopped = false ∧ (r.receive len_available line).result = .kErrorOk

def Receiver.next (r : Receiver) (len_available : ℕ) (line : List u8) : Receiver :=
  if r.stopped then r
  else
    let received := r.receive len_available line
    if received.result = .kErrorOk then
      { r with frame := r.frame + 1, accepted := r.accepted ++ [received.data] }
    else if received.result = .kErrorXModemCrc ∨
        r.frame = 1 ∧ received.result ∈ [.kErrorXModemTimeoutStart, .kErrorXModemUnknown] then r
    else { r with stopped := true }

/-- What arrives for a frame: the frame, or one with its header whose CRC is not that of
its payload. -/
def Arrives (frame line : List u8) : Prop :=
  line = frame ∨
    ∃ (payload : List u8) (hi lo : u8), line = frame.take 3 ++ (payload ++ [hi, lo]) ∧ line.length = frame.length ∧
      hi.setWidth 16 <<< 8 ||| lo.setWidth 16 ≠ crc16 0 payload

/-- One frame on its way: the bytes that arrive, the room the receiver has for its
payload, and what the sender hears. -/
structure Exchange where
  line : List u8
  len_available : ℕ
  answer : Option u8

/-- The receiver takes `r` to `r'` over the exchanges of the first frames of a sender. An
acknowledgement is heard only for a frame that was accepted. -/
inductive Exchanges : Receiver → List (List u8) → List Exchange → Receiver → Prop
  | none (r : Receiver) (frames : List (List u8)) : Exchanges r frames [] r
  | frame {r r' : Receiver} {frame : List u8} {frames : List (List u8)} {x : Exchange}
      {schedule : List Exchange} (harrives : Arrives frame x.line)
      (hack : x.answer = some kXModemAck → r.Accepts x.len_available x.line)
      (hrest : Exchanges (r.next x.len_available x.line) frames schedule r') :
      Exchanges r (frame :: frames) (x :: schedule) r'

/-! ## One frame -/

theorem xmodem_read_append (data : List u8) (rest : Line) :
    xmodem_read data.length (data.map some ++ rest) = (data, rest) := by
  induction data with
  | nil => cases rest <;> rfl
  | cons ch data ih =>
      rw [List.length_cons, List.map_cons, List.cons_append, xmodem_read, ih]

theorem xmodem_read_of_length {len : ℕ} {data : List u8} (h : data.length = len) (rest : Line) :
    xmodem_read len (data.map some ++ rest) = (data, rest) :=
  h ▸ xmodem_read_append data rest

theorem crc16_append (crc : u16) (buf after : List u8) :
    crc16 crc (buf ++ after) = crc16 (crc16 crc buf) after := List.foldl_append

/-- The CRC of a block to be padded is the one of the padded block. -/
theorem crc16_block_eq (p : List u8) :
    crc16_block (p.take (block_sz p.length)) (block_sz p.length) = crc16 0 (padded_block p) := by
  unfold crc16_block padded_block
  rw [crc16_append]
  rfl

theorem padded_block_length (p : List u8) : (padded_block p).length = block_sz p.length := by
  unfold padded_block
  rw [List.length_append, List.length_replicate, List.length_take]
  omega

theorem block_sz_eq (len : ℕ) : block_sz len = 128 ∨ block_sz len = 1024 := by
  unfold block_sz
  split_ifs
  · exact .inl rfl
  · exact .inr rfl

/-- The start byte of a frame stands for its block size. -/
def start_byte (p : List u8) : u8 := if block_sz p.length = 128 then kXModemSoh else kXModemStx

theorem block_frame_eq (block : u32) (p : List u8) :
    block_frame block p = [start_byte p, block.setWidth 8, 255 - block.setWidth 8] ++
      (padded_block p ++ [(crc16 0 (padded_block p) >>> 8).setWidth 8,
        (crc16 0 (padded_block p) &&& 0xff).setWidth 8]) := by
  rw [← crc16_block_eq]
  rfl

/-- What the receiver makes of a whole frame, intact or not. -/
theorem recv_frame (frame : u32) (len_available : ℕ) (p : List u8) (block inverse : u8)
    {payload : List u8} (hlen : payload.length = block_sz p.length) (hi lo : u8) :
    xmodem_recv_frame frame len_available
        (([start_byte p, block, inverse] ++ (payload ++ [hi, lo])).map some) =
      if len_available < block_sz p.length then
        .error .kErrorXModemBadLength [] (([block, inverse] ++ (payload ++ [hi, lo])).map some)
      else if block ≠ frame.setWidth 8 ∨ block ≠ 255 - inverse then
        { Received.error .kErrorXModemCancel payload [] with tx := [kXModemCancel, kXModemCancel] }
      else if hi.setWidth 16 <<< 8 ||| lo.setWidth 16 ≠ crc16 0 payload then
        .error .kErrorXModemCrc payload []
      else { Received.error .kErrorOk payload [] with rxlen := block_sz p.length } := by
  have hstart : start_byte p = kXModemStx ∨ start_byte p = kXModemSoh := by
    unfold start_byte
    split_ifs
    · exact .inr rfl
    · exact .inl rfl
  have hsize : (if start_byte p = kXModemStx then 1024 else 128) = block_sz p.length := by
    unfold start_byte
    obtain h | h := block_sz_eq p.length <;> rw [h] <;> rfl
  have hread : xmodem_read (block_sz p.length) ((payload ++ [hi, lo]).map some) =
      (payload, [some hi, some lo]) := by
    rw [List.map_append]
    exact xmodem_read_of_length hlen _
  unfold xmodem_recv_frame
  simp only [List.cons_append, List.nil_append, List.map_cons, xmodem_read, if_pos hstart, hsize,
    hread, hlen, ne_eq, not_true_eq_false, if_false]

/-- A frame that is accepted is as long as it is said to be, and there is room for it. -/
theorem xmodem_recv_frame_length {frame : u32} {len_available : ℕ} {line : Line}
    (h : (xmodem_recv_frame frame len_available line).result = .kErrorOk) :
    (xmodem_recv_frame frame len_available line).data.length =
        (xmodem_recv_frame frame len_available line).rxlen ∧
      (xmodem_recv_frame frame len_available line).rxlen ≤ len_available := by
  unfold xmodem_recv_frame at h ⊢
  generalize xmodem_read 1 line = first at h ⊢
  obtain ⟨- | ⟨ch, after⟩, rest⟩ := first
  · cases h
  dsimp only at h ⊢
  by_cases hstart : ch = kXModemStx ∨ ch = kXModemSoh
  · rw [if_pos hstart] at h ⊢
    generalize (if ch = kXModemStx then 1024 else 128) = len at h ⊢
    by_cases hroom : len_available < len
    · rw [if_pos hroom] at h
      cases h
    rw [if_neg hroom] at h ⊢
    split at h
    · rename_i block inverse behind _
      by_cases hlen : (xmodem_read len behind).1.length ≠ len
      · rw [if_pos hlen] at h
        cases h
      rw [if_neg hlen] at h ⊢
      split at h
      · split_ifs at h ⊢
        · cases h
        · cases h
        · exact ⟨not_not.mp hlen, Nat.not_lt.mp hroom⟩
      · cases h
    · cases h
  · rw [if_neg hstart] at h
    split_ifs at h
    · cases h
    · cases h

theorem recv_frame_ok {frame : u32} {len_available : ℕ} {p : List u8} {block inverse : u8}
    {payload : List u8} (hlen : payload.length = block_sz p.length) {hi lo : u8}
    (hok : (xmodem_recv_frame frame len_available
      (([start_byte p, block, inverse] ++ (payload ++ [hi, lo])).map some)).result = .kErrorOk) :
    block = frame.setWidth 8 ∧ hi.setWidth 16 <<< 8 ||| lo.setWidth 16 = crc16 0 payload ∧
      (xmodem_recv_frame frame len_available
        (([start_byte p, block, inverse] ++ (payload ++ [hi, lo])).map some)).data = payload := by
  rw [recv_frame _ _ _ _ _ hlen] at hok ⊢
  split_ifs at hok ⊢ with hroom hcancel hcrc
  · cases hok
  · cases hok
  · cases hok
  · exact ⟨not_not.mp (not_or.mp hcancel).1, not_not.mp hcrc, rfl⟩

/-- The receiver accepts a frame only as it was sent, under its own number. -/
theorem accepts_frame {r : Receiver} {len_available : ℕ} {block : u32} {p line : List u8}
    (harrives : Arrives (block_frame block p) line) (h : r.Accepts len_available line) :
    r.frame.setWidth 8 = block.setWidth 8 ∧ (r.receive len_available line).data = padded_block p := by
  obtain ⟨-, hresult⟩ := h
  obtain rfl | ⟨payload, hi, lo, rfl, hlen, hcrc⟩ := harrives
  · rw [block_frame_eq] at hresult ⊢
    obtain ⟨hnumber, -, hdata⟩ := recv_frame_ok (padded_block_length p) hresult
    exact ⟨hnumber.symm, hdata⟩
  · -- a frame whose CRC does not fit is refused, whatever else is wrong with it
    rw [block_frame_eq] at hresult hlen
    have hpayload : payload.length = block_sz p.length := by
      simp only [List.length_append, List.length_cons, List.length_nil, List.length_take,
        padded_block_length] at hlen
      omega
    exact absurd (recv_frame_ok hpayload hresult).2.1 hcrc

theorem next_of_accepts {r : Receiver} {len_available : ℕ} {line : List u8}
    (h : r.Accepts len_available line) :
    r.next len_available line =
      { r with frame := r.frame + 1
               accepted := r.accepted ++ [(r.receive len_available line).data] } := by
  unfold Receiver.next
  rw [h.1, if_neg Bool.false_ne_true]
  exact if_pos h.2

/-- A receiver that does not accept keeps its count. -/
theorem next_of_not_accepts {r : Receiver} {len_available : ℕ} {line : List u8}
    (h : ¬ r.Accepts len_available line) :
    (r.next len_available line).frame = r.frame ∧
      (r.next len_available line).accepted = r.accepted := by
  unfold Receiver.next
  by_cases hstopped : r.stopped = true
  · rw [if_pos hstopped]
    exact ⟨rfl, rfl⟩
  · rw [if_neg hstopped, if_neg fun hok => h ⟨eq_false_of_ne_true hstopped, hok⟩]
    split_ifs
    · exact ⟨rfl, rfl⟩
    · exact ⟨rfl, rfl⟩

/-! ## A whole transfer -/

/-- With the blocks `before` acknowledged and `p` still to send, the receiver expects the
block that is being sent, or has accepted it already. -/
def InSync (before : List (List u8)) (p : List u8) (block : u32) (r : Receiver) : Prop :=
  r.frame = block ∧ r.accepted = before ∨
    p ≠ [] ∧ r.frame = block + 1 ∧ r.accepted = before ++ [padded_block p]

theorem blocks_cons {p : List u8} (h : p ≠ []) :
    blocks p = padded_block p :: blocks (p.drop (block_sz p.length)) := by
  rw [blocks, if_neg h]

theorem InSync.accepted_le {before : List (List u8)} {p : List u8} {block : u32} {r : Receiver}
    (h : InSync before p block r) : r.accepted <+: before ++ blocks p := by
  obtain ⟨-, h⟩ | ⟨hp, -, h⟩ := h
  · rw [h]
    exact List.prefix_append _ _
  · rw [h, blocks_cons hp]
    exact ⟨blocks (p.drop (block_sz p.length)), by simp⟩

/-- Two numbers in a row differ in their last byte. -/
theorem succ_setWidth_ne (block : u32) : (block + 1).setWidth 8 ≠ block.setWidth 8 := by
  intro h
  have hnat := congrArg BitVec.toNat h
  have hone : (1 : u32).toNat = 1 := rfl
  simp only [BitVec.toNat_setWidth, BitVec.toNat_add, hone] at hnat
  omega

/-- One exchange keeps the sides in step, and an acknowledgement moves both on. -/
theorem InSync.next {before : List (List u8)} {p : List u8} {block : u32} {r : Receiver}
    {line : List u8} (len_available : ℕ) (hp : p ≠ []) (h : InSync before p block r)
    (harrives : Arrives (block_frame block p) line) :
    InSync before p block (r.next len_available line) ∧
      (r.Accepts len_available line →
        InSync (before ++ [padded_block p]) (p.drop (block_sz p.length)) (block + 1)
          (r.next len_available line)) := by
  by_cases haccepts : r.Accepts len_available line
  · obtain ⟨hnumber, hdata⟩ := accepts_frame harrives haccepts
    -- the block that was accepted already would carry the wrong number
    obtain ⟨hframe, hbefore⟩ | ⟨-, hframe, -⟩ := h
    · rw [next_of_accepts haccepts, hdata, hframe, hbefore]
      exact ⟨.inr ⟨hp, rfl, rfl⟩, fun _ => .inl ⟨rfl, rfl⟩⟩
    · rw [hframe] at hnumber
      exact absurd hnumber (succ_setWidth_ne block)
  · obtain ⟨hframe, hkept⟩ := next_of_not_accepts haccepts
    refine ⟨?_, fun h' => absurd h' haccepts⟩
    unfold InSync
    rw [hframe, hkept]
    exact h

theorem send_data_nil (max_errors : ℕ) (line : Line) (block : u32) (errors cancels : ℕ) :
    xmodem_send_data max_errors line [] block errors cancels = ⟨.kErrorOk, [], line⟩ := by
  unfold xmodem_send_data
  rfl

/-- What a sender with data left does with an answer: the next block after an
acknowledgement, and otherwise the same block again or the end. -/
theorem send_data_cases {max_errors : ℕ} {answer : Option u8} {line : Line} {p : List u8}
    {block : u32} {errors cancels : ℕ} (hp : p ≠ []) {sent : Sent}
    (hsent : xmodem_send_data max_errors (answer :: line) p block errors cancels = sent) :
    (answer = some kXModemAck ∧ ∃ after,
        xmodem_send_data max_errors line (p.drop (block_sz p.length)) (block + 1) errors cancels =
          after ∧ sent = { after with frames := block_frame block p :: after.frames }) ∨
      (answer ≠ some kXModemAck ∧ sent.result ≠ .kErrorOk ∧ sent.frames = [block_frame block p]) ∨
      (answer ≠ some kXModemAck ∧ ∃ errors' cancels' after,
        xmodem_send_data max_errors line p block errors' cancels' = after ∧
          sent = { after with frames := block_frame block p :: after.frames }) := by
  rw [xmodem_send_data, if_neg hp] at hsent
  cases answer with
  | none =>
      subst hsent
      exact .inr (.inl ⟨nofun, nofun, rfl⟩)
  | some ch =>
      dsimp only at hsent
      by_cases hack : ch = kXModemAck
      · rw [if_pos hack] at hsent
        exact .inl ⟨congrArg some hack, _, rfl, hsent.symm⟩
      · have hne : some ch ≠ some kXModemAck := fun h => hack (Option.some.inj h)
        rw [if_neg hack] at hsent
        by_cases hcancel : ch = kXModemCancel ∧ 2 ≤ cancels + 1
        · rw [if_pos hcancel] at hsent
          subst hsent
          exact .inr (.inl ⟨hne, nofun, rfl⟩)
        · rw [if_neg hcancel] at hsent
          generalize (if ch = kXModemCancel then (errors, cancels + 1) else (errors + 1, cancels))
            = counts at hsent
          obtain ⟨errors', cancels'⟩ := counts
          by_cases hmany : max_errors ≤ errors'
          · rw [if_pos hmany] at hsent
            subst hsent
            exact .inr (.inl ⟨hne, nofun, rfl⟩)
          · rw [if_neg hmany] at hsent
            exact .inr (.inr ⟨hne, errors', cancels', _, rfl, hsent.symm⟩)

theorem send_data_frames_ne_nil {max_errors : ℕ} {line : Line} {p : List u8} {block : u32}
    {errors cancels : ℕ} (hp : p ≠ []) :
    (xmodem_send_data max_errors line p block errors cancels).frames ≠ [] := by
  cases line with
  | nil =>
      rw [xmodem_send_data, if_neg hp]
      exact List.cons_ne_nil _ _
  | cons answer line =>
      obtain ⟨-, after, -, hsent⟩ | ⟨-, -, hframes⟩ | ⟨-, _, _, after, -, hsent⟩ :=
        send_data_cases hp (rfl : xmodem_send_data max_errors (answer :: line) p block errors cancels = _)
      · rw [hsent]
        exact List.cons_ne_nil _ _
      · rw [hframes]
        exact List.cons_ne_nil _ _
      · rw [hsent]
        exact List.cons_ne_nil _ _

/-- The rest of a transfer, from sides in step. -/
theorem send_data_exact {max_errors : ℕ} {before : List (List u8)} {schedule : List Exchange}
    {line : Line} {p : List u8} {block : u32} {errors cancels : ℕ} {r r' : Receiver} {sent : Sent}
    (hsent : xmodem_send_data max_errors line p block errors cancels = sent)
    (hsync : InSync before p block r) (hrun : Exchanges r sent.frames schedule r')
    (hheard : schedule.map Exchange.answer <+: line) :
    r'.accepted <+: before ++ blocks p ∧
      (sent.result = .kErrorOk → schedule.length = sent.frames.length →
        r'.accepted = before ++ blocks p) := by
  induction schedule generalizing before line p block errors cancels r sent with
  | nil =>
      obtain ⟨result, frames, rest⟩ := sent
      cases hrun
      refine ⟨hsync.accepted_le, fun _ hlen => ?_⟩
      have hp : p = [] := by
        by_contra hp
        have hframes := congrArg Sent.frames hsent
        rw [List.length_eq_zero_iff.mp hlen.symm] at hframes
        exact send_data_frames_ne_nil hp hframes
      obtain ⟨-, haccepted⟩ | ⟨hne, -⟩ := hsync
      · rw [haccepted, hp, blocks, if_pos rfl, List.append_nil]
      · exact absurd hp hne
  | cons x schedule ih =>
      have hp : p ≠ [] := by
        rintro rfl
        rw [send_data_nil] at hsent
        subst hsent
        cases hrun
      obtain ⟨line', hline⟩ := hheard
      rw [List.map_cons, List.cons_append] at hline
      subst hline
      have hrest : schedule.map Exchange.answer <+: schedule.map Exchange.answer ++ line' :=
        List.prefix_append _ _
      obtain ⟨hanswer, after, hafter, rfl⟩ | ⟨hanswer, hresult, hframes⟩ |
          ⟨hanswer, _, _, after, hafter, rfl⟩ := send_data_cases hp hsent
      · cases hrun with
        | frame harrives hack hrun =>
          have hnext := (hsync.next x.len_available hp harrives).2 (hack hanswer)
          obtain ⟨hle, hall⟩ := ih hafter hnext hrun hrest
          rw [List.append_assoc, List.singleton_append, ← blocks_cons hp] at hle hall
          exact ⟨hle, fun hok hlen => hall hok (Nat.succ.inj hlen)⟩
      · rw [hframes] at hrun
        cases hrun with
        | frame harrives hack hrun =>
          have hnext := (hsync.next x.len_available hp harrives).1
          cases hrun
          exact ⟨hnext.accepted_le, fun hok => absurd hok hresult⟩
      · cases hrun with
        | frame harrives hack hrun =>
          have hnext := (hsync.next x.len_available hp harrives).1
          obtain ⟨hle, hall⟩ := ih hafter hnext hrun hrest
          exact ⟨hle, fun hok hlen => hall hok (Nat.succ.inj hlen)⟩

/-- The blocks make up the data, with less than 128 bytes of padding behind it. -/
theorem blocks_flatten (data : List u8) :
    ∃ k < 128, (blocks data).flatten = data ++ List.replicate k 0 ∧ 128 ∣ data.length + k := by
  induction data using blocks.induct with
  | case1 =>
      rw [blocks, if_pos rfl]
      exact ⟨0, by decide, rfl, by decide⟩
  | case2 data hdata ih =>
      rw [blocks_cons hdata, List.flatten_cons]
      by_cases hlast : data.length ≤ block_sz data.length
      · -- the only block, which may be a short one
        have hshort : block_sz data.length = 128 ∨ data.length = 1024 := by
          unfold block_sz at hlast ⊢
          split_ifs at hlast ⊢ <;> omega
        have hpos : 0 < data.length := List.length_pos_iff.mpr hdata
        rw [List.drop_of_length_le hlast, blocks, if_pos rfl, List.flatten_nil, List.append_nil]
        unfold padded_block
        rw [List.take_of_length_le hlast]
        refine ⟨block_sz data.length - data.length, ?_, rfl, ?_⟩
        · obtain h | h := hshort
          · omega
          · rw [h]
            decide
        · rw [Nat.add_sub_cancel' hlast]
          obtain h | h := block_sz_eq data.length
          · rw [h]
          · rw [h]
            decide
      · obtain ⟨k, hk, hflatten, hdvd⟩ := ih
        refine ⟨k, hk, ?_, ?_⟩
        · have hfull : padded_block data = data.take (block_sz data.length) := by
            unfold padded_block
            dsimp only
            rw [List.length_take_of_le (by omega), Nat.sub_self, List.replicate_zero,
              List.append_nil]
          rw [hflatten, hfull, ← List.append_assoc, List.take_append_drop]
        · rw [List.length_drop] at hdvd
          obtain h | h := block_sz_eq data.length <;> rw [h] at hdvd hlast <;> omega

/-- Whatever the receiver is sent of each frame and whatever the sender hears, what has
been accepted is at any moment the beginning of the sequence of blocks, and all of it
when `xmodem_send` succeeds. -/
theorem xmodem_transfer_exact (data : List u8) (line : Line) (schedule : List Exchange)
    (r : Receiver) (hrun : Exchanges .start (xmodem_send data line).frames schedule r)
    (hheard : schedule.map Exchange.answer <+: (xmodem_send_start 30 0 line).2) :
    r.accepted <+: blocks data ∧
      ((xmodem_send data line).result = .kErrorOk →
        schedule.length = (xmodem_send data line).frames.length →
        r.accepted = blocks data ∧
          ∃ k < 128, r.accepted.flatten = data ++ List.replicate k 0 ∧ 128 ∣ data.length + k) := by
  unfold xmodem_send at hrun ⊢
  rcases hstart : xmodem_send_start 30 0 line with ⟨error, line1⟩
  rw [hstart] at hrun hheard
  dsimp only at hrun hheard ⊢
  by_cases herror : error ≠ .kErrorOk
  · rw [if_pos herror] at hrun ⊢
    cases hrun
    exact ⟨List.nil_prefix, fun hok => absurd hok herror⟩
  · rw [if_neg herror] at hrun ⊢
    have hsync : InSync [] data 1 Receiver.start := .inl ⟨rfl, rfl⟩
    have hframes : Exchanges .start
        (xmodem_send_data kXModemMaxErrors line1 data 1 0 0).frames schedule r := by
      split_ifs at hrun <;> exact hrun
    obtain ⟨hle, hall⟩ := send_data_exact rfl hsync hframes hheard
    rw [List.nil_append] at hle hall
    refine ⟨hle, ?_⟩
    split_ifs with hfailed
    · exact fun hok => absurd hok hfailed
    · intro _ hlen
      have haccepted := hall (not_not.mp hfailed) hlen
      rw [haccepted]
      exact ⟨rfl, blocks_flatten data⟩

/-! ### A frame that is sent twice -/

/-- What the sender of three bytes hears. -/
def retry_line : Line := [some kXModemCrc16, some kXModemNak, some kXModemAck]

/-- Their frame as it comes in the first time. -/
def garbled_frame : List u8 :=
  (block_frame 1 [1, 2, 3]).take 3 ++ (List.replicate 128 9 ++ [0, 0])

def retry_schedule : List Exchange :=
  [⟨garbled_frame, 2048, some kXModemNak⟩, ⟨block_frame 1 [1, 2, 3], 2048, some kXModemAck⟩]

def retry_receiver : Receiver :=
  (Receiver.start.next 2048 garbled_frame).next 2048 (block_frame 1 [1, 2, 3])

set_option maxRecDepth 20000 in
theorem retry_frames : (xmodem_send [1, 2, 3] retry_line).frames =
    [block_frame 1 [1, 2, 3], block_frame 1 [1, 2, 3]] := rfl

set_option maxRecDepth 20000 in
theorem exchanges_retry :
    Exchanges .start (xmodem_send [1, 2, 3] retry_line).frames retry_schedule retry_receiver := by
  rw [retry_frames]
  refine .frame (.inr ⟨List.replicate 128 9, 0, 0, rfl, by decide, by decide +kernel⟩) nofun ?_
  exact .frame (.inl rfl) (fun _ => ⟨by decide +kernel, by decide +kernel⟩) (.none _ _)

set_option maxRecDepth 20000 in
theorem xmodem_transfer_exact_retry :
    Exchanges .start (xmodem_send [1, 2, 3] retry_line).frames retry_schedule retry_receiver ∧
      (xmodem_send [1, 2, 3] retry_line).result = .kErrorOk ∧
      retry_receiver.accepted = blocks [1, 2, 3] ∧
      retry_receiver.accepted.flatten = [1, 2, 3] ++ List.replicate 125 (0 : u8) := by
  have hok : (xmodem_send [1, 2, 3] retry_line).result = .kErrorOk := rfl
  obtain ⟨-, hall⟩ := xmodem_transfer_exact _ _ _ _ exchanges_retry List.prefix_rfl
  obtain ⟨hblocks, k, hk, hflatten, hdvd⟩ := hall hok (congrArg List.length retry_frames).symm
  have hpad : k = 125 := by
    simp only [List.length_cons, List.length_nil] at hdvd
    omega
  exact ⟨exchanges_retry, hok, hblocks, hpad ▸ hflatten⟩

end IbexFirmware.Xmodem
