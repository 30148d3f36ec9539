import MeshBus.Lib.Bytes
import MeshBus.Lib.Stream
import MeshBus.Wire

/-!
# Wire.Frame

The frames of a link (`FrameEncoder`, `FrameDecoder` of `mb-wire`): an eight byte header (version
and type, channel, two zero bytes, big-endian payload length) and the payload.

`decode_frameBytes` and `decode_sound` say that decoding and encoding are inverse; `incremental`
that the decoder may be run on a growing buffer, as `run_link` does.
-/

namespace MeshBus
namespace Wire

def frameVersion : UInt8 := 1
def headerLen : Nat := 8

inductive FrameType where
  | linkHello
  | lsa
  | digest
  | digestReq
  | forward
  | circuit
  | credit
  | ping
deriving DecidableEq

inductive Channel where
  | control
  | rpc
  | pubSubP0
  | pubSubP1
  | pubSubP2
  | pubSubP3
  | tunnel
deriving DecidableEq

inductive FrameError where
  | unsupportedVersion (version : UInt8)
  | unknownFrameType (frameType : UInt8)
  | unknownChannel (channel : UInt8)
  | unsupportedFlags (flags : UInt8)
  | nonZeroReserved (reserved : UInt8)
  | payloadTooLarge (length : Nat)
deriving DecidableEq

namespace FrameType

/-- `frame_type as u8`. -/
def toByte : FrameType → UInt8
  | linkHello => 1
  | lsa => 2
  | digest => 3
  | digestReq => 4
  | forward => 5
  | circuit => 6
  | credit => 7
  | ping => 8

def tryFrom (value : UInt8) : Except FrameError FrameType :=
  match value with
  | 1 => .ok linkHello
  | 2 => .ok lsa
  | 3 => .ok digest
  | 4 => .ok digestReq
  | 5 => .ok forward
  | 6 => .ok circuit
  | 7 => .ok credit
  | 8 => .ok ping
  | other => .error (.unknownFrameType other)

theorem tryFrom_toByte (t : FrameType) : tryFrom t.toByte = .ok t := by
  cases t <;> rfl

theorem toByte_of_tryFrom {value : UInt8} {t : FrameType} (h : tryFrom value = .ok t) :
    value = t.toByte := by
  unfold tryFrom at h
  split at h <;> cases h <;> rfl

end FrameType

namespace Channel

/-- `channel as u8`. -/
def toByte : Channel → UInt8
  | control => 0
  | rpc => 1
  | pubSubP0 => 2
  | pubSubP1 => 3
  | pubSubP2 => 4
  | pubSubP3 => 5
  | tunnel => 6

def tryFrom (value : UInt8) : Except FrameError Channel :=
  match value with
  | 0 => .ok control
  | 1 => .ok rpc
  | 2 => .ok pubSubP0
  | 3 => .ok pubSubP1
  | 4 => .ok pubSubP2
  | 5 => .ok pubSubP3
  | 6 => .ok tunnel
  | other => .error (.unknownChannel other)

theorem tryFrom_toByte (c : Channel) : tryFrom c.toByte = .ok c := by
  cases c <;> rfl

theorem toByte_of_tryFrom {value : UInt8} {c : Channel} (h : tryFrom value = .ok c) :
    value = c.toByte := by
  unfold tryFrom at h
  split at h <;> cases h <;> rfl

end Channel

structure WireFrame where
  frameType : FrameType
  channel : Channel
  payload : Bytes
deriving DecidableEq

/-- `WireFrame::control`. -/
def WireFrame.control (frameType : FrameType) (payload : Bytes) : WireFrame :=
  ⟨frameType, .control, payload⟩

/-- The eight header bytes. -/
def frameHeader (frameType : FrameType) (channel : Channel) (payloadLen : Nat) : Bytes :=
  [(frameVersion <<< 4) ||| frameType.toByte, channel.toByte, 0, 0] ++ beBytes 4 payloadLen

/-- The header, then the payload. -/
def frameBytes (frame : WireFrame) : Bytes :=
  frameHeader frame.frameType frame.channel frame.payload.length ++ frame.payload

def FrameEncoder.encode (frame : WireFrame) : Except FrameError Bytes :=
  let payloadLen := frame.payload.length
  if maxPayloadLen < payloadLen then .error (.payloadTooLarge payloadLen)
  else .ok (frameBytes frame)

theorem FrameEncoder.encode_of_le {frame : WireFrame} (h : frame.payload.length ≤ maxPayloadLen) :
    encode frame = .ok (frameBytes frame) := by
  simp only [encode, if_neg (Nat.not_lt.mpr h)]

theorem FrameEncoder.encode_ok {frame : WireFrame} {bytes : Bytes} (h : encode frame = .ok bytes) :
    bytes = frameBytes frame ∧ frame.payload.length ≤ maxPayloadLen := by
  simp only [encode] at h
  split at h
  · cases h
  · rename_i hle
    cases h
    exact ⟨rfl, Nat.le_of_not_lt hle⟩

namespace FrameDecoder

/-- The checks on a complete header. The indices are in range: `decode` calls this with at least
`headerLen` bytes. -/
def header (source : Bytes) : Except FrameError (FrameType × Channel × Nat) :=
  let version := source.getD 0 0 >>> 4
  if version ≠ frameVersion then .error (.unsupportedVersion version)
  else
    match FrameType.tryFrom (source.getD 0 0 &&& 0x0f) with
    | .error e => .error e
    | .ok frameType =>
      match Channel.tryFrom (source.getD 1 0) with
      | .error e => .error e
      | .ok channel =>
        if source.getD 2 0 ≠ 0 then .error (.unsupportedFlags (source.getD 2 0))
        else if source.getD 3 0 ≠ 0 then .error (.nonZeroReserved (source.getD 3 0))
        else
          let payloadLen := beNat (slice 4 4 source)
          if maxPayloadLen < payloadLen then .error (.payloadTooLarge payloadLen)
          else .ok (frameType, channel, payloadLen)

/-- `Ok(None)` is `.ok none`; the bytes after the frame stay in the buffer. -/
def decode (source : Bytes) : Except FrameError (Option (WireFrame × Bytes)) :=
  if source.length < headerLen then .ok none
  else
    match header source with
    | .error e => .error e
    | .ok (frameType, channel, payloadLen) =>
      let frameLen := headerLen + payloadLen
      if source.length < frameLen then .ok none
      else
        .ok (some (⟨frameType, channel, slice headerLen payloadLen source⟩, source.drop frameLen))

/-! ## Headers -/

theorem high_nibble {a : UInt8} (h : a >>> 4 = frameVersion) :
    a = (frameVersion <<< 4) ||| (a &&& 0x0f) := by
  have key : ∀ n : Fin 256, UInt8.ofNat n.val >>> (4 : UInt8) = frameVersion →
      UInt8.ofNat n.val = (frameVersion <<< (4 : UInt8)) ||| (UInt8.ofNat n.val &&& 0x0f) := by
    decide +kernel
  have ha := key ⟨a.toNat, a.toNat_lt⟩
  rw [UInt8.ofNat_toNat] at ha
  exact ha h

theorem nibbles (t : FrameType) :
    ((frameVersion <<< 4) ||| t.toByte) >>> 4 = frameVersion ∧
      ((frameVersion <<< 4) ||| t.toByte) &&& 0x0f = t.toByte := by
  cases t <;> decide

theorem header_append {buf : Bytes} (h : headerLen ≤ buf.length) (more : Bytes) :
    header (buf ++ more) = header buf := by
  unfold headerLen at h
  simp only [header]
  rw [List.getD_append buf more 0 0 (by omega), List.getD_append buf more 0 1 (by omega),
    List.getD_append buf more 0 2 (by omega), List.getD_append buf more 0 3 (by omega),
    slice_append_left (by omega)]

theorem header_frameHeader (t : FrameType) (c : Channel) {n : Nat} (h : n ≤ maxPayloadLen) :
    header (frameHeader t c n) = .ok (t, c, n) := by
  have hslice : slice 4 4 (frameHeader t c n) = beBytes 4 n := by
    have := slice_append (a := [(frameVersion <<< 4) ||| t.toByte, c.toByte, 0, 0])
      (b := beBytes 4 n) (c := []) rfl (length_beBytes 4 n)
    rwa [List.append_nil] at this
  have hlen : beNat (beBytes 4 n) = n := by
    refine beNat_beBytes ?_
    unfold maxPayloadLen at h
    omega
  have h0 : (frameHeader t c n).getD 0 0 = (frameVersion <<< 4) ||| t.toByte := rfl
  have h1 : (frameHeader t c n).getD 1 0 = c.toByte := rfl
  have h2 : (frameHeader t c n).getD 2 0 = 0 := rfl
  have h3 : (frameHeader t c n).getD 3 0 = 0 := rfl
  simp only [header, h0, h1, h2, h3, hslice, hlen]
  simp [nibbles, FrameType.tryFrom_toByte, Channel.tryFrom_toByte, Nat.not_lt.mpr h]

/-- An accepted header is the header of what was read from it. -/
theorem header_sound {buf : Bytes} {t : FrameType} {c : Channel} {n : Nat}
    (hlen : headerLen ≤ buf.length) (h : header buf = .ok (t, c, n)) :
    buf.take headerLen = frameHeader t c n ∧ n ≤ maxPayloadLen := by
  match buf, hlen with
  | b0 :: b1 :: b2 :: b3 :: b4 :: b5 :: b6 :: b7 :: rest, _ =>
    simp only [header, List.getD_cons_zero, List.getD_cons_succ] at h
    split at h
    · cases h
    · rename_i hversion
      split at h
      · cases h
      · rename_i t' ht
        split at h
        · cases h
        · rename_i c' hc
          split at h
          · cases h
          · rename_i hflags
            split at h
            · cases h
            · rename_i hreserved
              split at h
              · cases h
              · rename_i hle
                cases h
                refine ⟨?_, Nat.le_of_not_lt hle⟩
                have hb0 := high_nibble (not_not.mp hversion)
                rw [FrameType.toByte_of_tryFrom ht] at hb0
                have hlen4 : slice 4 4 (b0 :: b1 :: b2 :: b3 :: b4 :: b5 :: b6 :: b7 :: rest) =
                    [b4, b5, b6, b7] := rfl
                have hbytes : beBytes 4 (beNat [b4, b5, b6, b7]) = [b4, b5, b6, b7] :=
                  beBytes_beNat [b4, b5, b6, b7]
                rw [hlen4, frameHeader, ← hb0, ← Channel.toByte_of_tryFrom hc, hbytes,
                  not_not.mp hflags, not_not.mp hreserved]
                rfl

/-! ## Frames -/

theorem length_frameHeader (t : FrameType) (c : Channel) (n : Nat) :
    (frameHeader t c n).length = headerLen := by
  simp [frameHeader, headerLen]

theorem decode_nil : decode [] = .ok none := rfl

theorem length_frameBytes (frame : WireFrame) :
    (frameBytes frame).length = headerLen + frame.payload.length := by
  rw [frameBytes, List.length_append, length_frameHeader]

/-- Decoding reads back what was encoded and leaves the bytes after it. -/
theorem decode_frameBytes {frame : WireFrame} (h : frame.payload.length ≤ maxPayloadLen)
    (rest : Bytes) : decode (frameBytes frame ++ rest) = .ok (some (frame, rest)) := by
  have hhead := length_frameHeader frame.frameType frame.channel frame.payload.length
  have hlen : (frameBytes frame ++ rest).length =
      headerLen + frame.payload.length + rest.length := by
    rw [List.length_append, length_frameBytes]
  have hheader : header (frameBytes frame ++ rest) =
      .ok (frame.frameType, frame.channel, frame.payload.length) := by
    rw [frameBytes, List.append_assoc, header_append (Nat.le_of_eq hhead.symm)]
    exact header_frameHeader _ _ h
  have hpayload : slice headerLen frame.payload.length (frameBytes frame ++ rest) =
      frame.payload := by
    rw [frameBytes, List.append_assoc]
    exact slice_append hhead rfl
  have hrest : (frameBytes frame ++ rest).drop (headerLen + frame.payload.length) = rest :=
    List.drop_left' (length_frameBytes frame)
  rw [decode, if_neg (by omega), hheader]
  simp only [if_neg (show ¬ (frameBytes frame ++ rest).length <
    headerLen + frame.payload.length by omega), hpayload, hrest]

/-- A decoded frame is within the limit, and the bytes it took are its encoding. -/
theorem decode_sound {buf rest : Bytes} {frame : WireFrame}
    (h : decode buf = .ok (some (frame, rest))) :
    frame.payload.length ≤ maxPayloadLen ∧ buf = frameBytes frame ++ rest := by
  simp only [decode] at h
  split at h
  · cases h
  · rename_i hlong
    split at h
    · cases h
    · rename_i t c n hheader
      split at h
      · cases h
      · rename_i hwhole
        cases h
        obtain ⟨htake, hle⟩ := header_sound (Nat.le_of_not_lt hlong) hheader
        have hpayload : (slice headerLen n buf).length = n := length_slice (Nat.le_of_not_lt hwhole)
        refine ⟨hpayload.symm ▸ hle, ?_⟩
        rw [frameBytes, hpayload, ← htake, List.append_assoc, ← drop_eq_slice_append,
          List.take_append_drop]

theorem incremental : Incremental decode where
  shorter {buf frame rest} h := by
    obtain ⟨-, rfl⟩ := decode_sound h
    rw [List.length_append, length_frameBytes, headerLen]
    omega
  item {buf frame rest} more h := by
    obtain ⟨hle, rfl⟩ := decode_sound h
    rw [List.append_assoc]
    exact decode_frameBytes hle _
  error {buf e} more h := by
    simp only [decode] at h
    split at h
    · cases h
    · rename_i hlong
      split at h
      · rename_i e' hheader
        cases h
        have hlong' : ¬ (buf ++ more).length < headerLen := by
          rw [List.length_append]
          omega
        rw [decode, if_neg hlong', header_append (Nat.le_of_not_lt hlong), hheader]
      · split at h <;> cases h

end FrameDecoder

/-! ## Streams -/

/-- The frames a link reads from the chunks TCP gives it, and what is left in its buffer: the
reading side of `run_link`, which stops at the first error. -/
def readFrames (chunks : List Bytes) : Drained WireFrame UInt8 FrameError :=
  feedAll FrameDecoder.decode chunks

theorem readFrames_eq_drain (chunks : List Bytes) :
    readFrames chunks = drain FrameDecoder.decode chunks.flatten :=
  feedAll_eq_drain FrameDecoder.incremental FrameDecoder.decode_nil chunks

/-- Whatever arrives, what was read and what is left make up what arrived. -/
theorem readFrames_sound (chunks : List Bytes) :
    ∃ rest, chunks.flatten = (readFrames chunks).items.flatMap frameBytes ++ rest ∧
      ∀ left, (readFrames chunks).left = .ok left → left = rest := by
  rw [readFrames_eq_drain]
  exact drain_sound FrameDecoder.incremental (fun _ _ _ h => (FrameDecoder.decode_sound h).2) _

/-- The encodings of frames within the limit, one after the other, are read back as those frames. -/
theorem readFrames_encoded {frames : List WireFrame}
    (h : ∀ frame ∈ frames, frame.payload.length ≤ maxPayloadLen) :
    readFrames [frames.flatMap frameBytes] = ⟨frames, .ok []⟩ := by
  have hdrain := drain_flatMap FrameDecoder.incremental
    (fun frame hframe rest => FrameDecoder.decode_frameBytes (h frame hframe) rest) []
  rw [drain_none FrameDecoder.incremental FrameDecoder.decode_nil, List.append_nil,
    List.append_nil] at hdrain
  rw [readFrames_eq_drain, List.flatten_singleton, hdrain]

theorem mapM_encode {frames : List WireFrame}
    (h : ∀ frame ∈ frames, frame.payload.length ≤ maxPayloadLen) :
    frames.mapM FrameEncoder.encode = .ok (frames.map frameBytes) := by
  induction frames with
  | nil => rfl
  | cons frame frames ih =>
    rw [List.mapM_cons, FrameEncoder.encode_of_le (h frame List.mem_cons_self),
      ih fun f hf => h f (List.mem_cons_of_mem _ hf)]
    rfl

/-- What a link reads depends on the bytes and not on how TCP cuts them; frames within the limit
are read back as they were written; a frame that was read encodes to the bytes it took. -/
theorem framing_exact :
    (∀ chunks chunks' : List Bytes, chunks.flatten = chunks'.flatten →
      readFrames chunks = readFrames chunks') ∧
    (∀ frames : List WireFrame, (∀ frame ∈ frames, frame.payload.length ≤ maxPayloadLen) →
      ∃ encoded, frames.mapM FrameEncoder.encode = .ok encoded ∧
        readFrames [encoded.flatten] = ⟨frames, .ok []⟩) ∧
    ∀ (buf rest : Bytes) (frame : WireFrame),
      FrameDecoder.decode buf = .ok (some (frame, rest)) →
      ∃ bytes, FrameEncoder.encode frame = .ok bytes ∧ buf = bytes ++ rest := by
  refine ⟨?_, ?_, ?_⟩
  · intro chunks chunks' h
    rw [readFrames_eq_drain, readFrames_eq_drain, h]
  · intro frames h
    refine ⟨frames.map frameBytes, mapM_encode h, ?_⟩
    rw [← List.flatMap_def]
    exact readFrames_encoded h
  · intro buf rest frame h
    obtain ⟨hle, hbuf⟩ := FrameDecoder.decode_sound h
    exact ⟨frameBytes frame, FrameEncoder.encode_of_le hle, hbuf⟩

/-- A frame of two bytes read whole, and read byte by byte. -/
theorem framing_exact_cut :
    readFrames [[0x12, 0, 0, 0, 0, 0, 0, 2, 7, 8]] =
        readFrames [[0x12], [0, 0, 0], [0, 0, 0, 2, 7], [8]] ∧
      FrameDecoder.decode [0x12, 0, 0, 0, 0, 0, 0, 2, 7, 8] =
        .ok (some (.control .lsa [7, 8], [])) ∧
      ∃ bytes, FrameEncoder.encode (.control .lsa [7, 8]) = .ok bytes ∧
        [0x12, 0, 0, 0, 0, 0, 0, 2, 7, 8] = bytes ++ [] := by
  have hdec : FrameDecoder.decode [0x12, 0, 0, 0, 0, 0, 0, 2, 7, 8] =
      .ok (some (.control .lsa [7, 8], [])) := by
    have hbytes : [0x12, 0, 0, 0, 0, 0, 0, 2, 7, 8] =
        frameBytes (.control .lsa [7, 8]) ++ [] := by
      decide
    rw [hbytes]
    exact FrameDecoder.decode_frameBytes (by decide) []
  exact ⟨framing_exact.1 _ _ rfl, hdec, framing_exact.2.2 _ _ _ hdec⟩

end Wire
end MeshBus
