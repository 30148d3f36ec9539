import MeshBus.Lib.Bytes
import MeshBus.Wire

/-!
# Wire.Forward

The bytes of a forward packet (`ForwardPacketCodec`, `MulticastPayloadCodec` of `mb-wire`): a header
of 88 bytes at fixed offsets, then the payload. The payload of a multicast packet starts with its
destinations, a big-endian count and 32 bytes each.
-/

namespace MeshBus
namespace Wire

def forwardPacketVersion : UInt8 := 1

inductive ForwardPacketError where
  | headerTooShort (length : Nat)
  | unsupportedVersion (version : UInt8)
  | unknownPacketType (packetType : UInt8)
  | unknownPriority (priority : UInt8)
  | unsupportedFlags (flags : UInt32)
  | invalidMulticast (error : MulticastPayloadError)
  | unexpectedMulticastDestinations (count : Nat)
  | payloadTooLarge (length : Nat)
deriving DecidableEq

namespace PacketType

/-- `packet_type as u8`. -/
def toByte : PacketType → UInt8
  | unicast => 1
  | multicast => 2
  | circuitData => 3
  | circuitControl => 4

def tryFrom (value : UInt8) : Except ForwardPacketError PacketType :=
  match value with
  | 1 => .ok unicast
  | 2 => .ok multicast
  | 3 => .ok circuitData
  | 4 => .ok circuitControl
  | other => .error (.unknownPacketType other)

theorem tryFrom_toByte (t : PacketType) : tryFrom t.toByte = .ok t := by
  cases t <;> rfl

theorem toByte_of_tryFrom {value : UInt8} {t : PacketType} (h : tryFrom value = .ok t) :
    value = t.toByte := by
  unfold tryFrom at h
  split at h <;> cases h <;> rfl

end PacketType

namespace Priority

/-- `priority as u8`. -/
def toByte : Priority → UInt8
  | p0 => 0
  | p1 => 1
  | p2 => 2
  | p3 => 3

def tryFrom (value : UInt8) : Except ForwardPacketError Priority :=
  match value with
  | 0 => .ok p0
  | 1 => .ok p1
  | 2 => .ok p2
  | 3 => .ok p3
  | other => .error (.unknownPriority other)

theorem tryFrom_toByte (p : Priority) : tryFrom p.toByte = .ok p := by
  cases p <;> rfl

theorem toByte_of_tryFrom {value : UInt8} {p : Priority} (h : tryFrom value = .ok p) :
    value = p.toByte := by
  unfold tryFrom at h
  split at h <;> cases h <;> rfl

end Priority

theorem ForwardFlags.fromBits_bits (flags : ForwardFlags) :
    ForwardFlags.fromBits flags.bits = some flags := by
  simp [ForwardFlags.fromBits, flags.valid]

theorem ForwardFlags.bits_of_fromBits {bits : UInt32} {flags : ForwardFlags}
    (h : ForwardFlags.fromBits bits = some flags) : flags.bits = bits := by
  unfold ForwardFlags.fromBits at h
  split at h
  · cases h
    rfl
  · cases h

/-- `copy_from_slice` into a `[u8; 32]`; the decoders only pass slices of 32 bytes. -/
def nodeIdOf (bytes : Bytes) : NodeId :=
  if h : bytes.length = 32 then ⟨bytes, h⟩ else default

theorem nodeIdOf_bytes (node : NodeId) : nodeIdOf node.bytes = node := by
  rw [nodeIdOf, dif_pos node.length_bytes]

theorem bytes_nodeIdOf {bytes : Bytes} (h : bytes.length = 32) :
    (nodeIdOf bytes).bytes = bytes := by
  rw [nodeIdOf, dif_pos h]

/-! ## Multicast payloads -/

namespace MulticastPayloadCodec

def encode (payload : MulticastPayload) : Bytes :=
  beBytes 2 payload.destinations.length ++ payload.destinations.flatMap NodeId.bytes ++ payload.body

/-- The `count` destinations after the count, in the order of the bytes. -/
def destinations (count : Nat) (encoded : Bytes) : List NodeId :=
  (List.range count).map fun index =>
    nodeIdOf (slice (multicastCountLen + index * nodeIdLen) nodeIdLen encoded)

def decode (encoded : Bytes) : Except MulticastPayloadError MulticastPayload :=
  if maxForwardPayloadLen < encoded.length then .error (.payloadTooLarge encoded.length)
  else if encoded.length < multicastCountLen then .error (.headerTooShort encoded.length)
  else
    let count := beNat (slice 0 2 encoded)
    if count = 0 then .error .emptyDestinations
    else if maxMulticastDestinations < count then .error (.tooManyDestinations count)
    else
      let prefixLen := multicastPrefixLen count
      if encoded.length < prefixLen then
        .error (.destinationListTruncated prefixLen encoded.length)
      else
        match canonicalizeDestinations (destinations count encoded) with
        | .error e => .error e
        | .ok sorted => MulticastPayload.new sorted (encoded.drop prefixLen)

theorem slice_flatMap {ds : List NodeId} {i : Nat} {d : NodeId} (h : ds[i]? = some d)
    (body : Bytes) : slice (i * 32) 32 (ds.flatMap NodeId.bytes ++ body) = d.bytes := by
  induction ds generalizing i with
  | nil => simp at h
  | cons a ds ih =>
    rw [List.flatMap_cons, List.append_assoc]
    cases i with
    | zero =>
      simp only [List.getElem?_cons_zero, Option.some.injEq] at h
      subst h
      rw [Nat.zero_mul, slice_zero_append a.length_bytes]
    | succ i =>
      rw [List.getElem?_cons_succ] at h
      rw [slice_append_right (by rw [a.length_bytes]; omega), a.length_bytes,
        show (i + 1) * 32 - 32 = i * 32 by omega]
      exact ih h

theorem length_flatMap_bytes (ds : List NodeId) :
    (ds.flatMap NodeId.bytes).length = 32 * ds.length := by
  induction ds with
  | nil => rfl
  | cons a ds ih =>
    rw [List.flatMap_cons, List.length_append, ih, a.length_bytes, List.length_cons]
    omega

/-- The destinations that were written are found in their order. -/
theorem destinations_flatMap {count : Bytes} (hc : count.length = 2) (ds : List NodeId)
    (body : Bytes) :
    destinations ds.length (count ++ (ds.flatMap NodeId.bytes ++ body)) = ds := by
  apply List.ext_getElem
  · simp [destinations]
  · intro i h1 h2
    simp only [destinations, List.getElem_map, List.getElem_range, multicastCountLen, nodeIdLen]
    rw [slice_append_right (by omega), hc, show 2 + i * 32 - 2 = i * 32 by omega,
      slice_flatMap (List.getElem?_eq_getElem h2), nodeIdOf_bytes]

/-- The bytes of the destinations that were read. -/
theorem flatMap_destinations {count : Nat} {b : Bytes} (h : 2 + 32 * count ≤ b.length) :
    (destinations count b).flatMap NodeId.bytes = slice 2 (32 * count) b := by
  induction count with
  | zero => simp [destinations, slice]
  | succ count ih =>
    have hbytes : (nodeIdOf (slice (2 + count * 32) 32 b)).bytes = slice (2 + count * 32) 32 b :=
      bytes_nodeIdOf (length_slice (by omega))
    have hsucc : destinations (count + 1) b =
        destinations count b ++ [nodeIdOf (slice (2 + count * 32) 32 b)] := by
      rw [destinations, List.range_succ, List.map_append]
      rfl
    rw [hsucc, List.flatMap_append, ih (by omega), List.flatMap_singleton, hbytes,
      Nat.mul_comm count 32, show 32 * (count + 1) = 32 * count + 32 by omega, slice_add]

theorem length_encode (m : MulticastPayload) :
    (encode m).length = 2 + 32 * m.destinations.length + m.body.length := by
  rw [encode, List.length_append, List.length_append, length_beBytes, length_flatMap_bytes]

theorem count_encode (m : MulticastPayload) :
    beNat (slice 0 2 (encode m)) = m.destinations.length := by
  have hcount := m.count_le
  unfold maxMulticastDestinations at hcount
  rw [encode, List.append_assoc, slice_zero_append (length_beBytes _ _), beNat_beBytes (by omega)]

theorem destinations_encode (m : MulticastPayload) :
    destinations m.destinations.length (encode m) = m.destinations := by
  rw [encode, List.append_assoc]
  exact destinations_flatMap (length_beBytes _ _) _ _

/-- The payload limit counts the destinations. -/
theorem length_encode_le (m : MulticastPayload) : (encode m).length ≤ maxForwardPayloadLen := by
  have hlen := m.len_le
  rw [multicastPrefixLen_eq m.count_le, satAdd_le_maxForwardPayloadLen] at hlen
  rw [length_encode]
  exact hlen

theorem decode_encode (m : MulticastPayload) : decode (encode m) = .ok m := by
  have hlen := length_encode m
  have hpos : 0 < m.destinations.length := List.length_pos_iff.mpr m.nonempty
  have hbody : (encode m).drop (2 + 32 * m.destinations.length) = m.body := by
    rw [encode]
    refine List.drop_left' ?_
    rw [List.length_append, length_beBytes, length_flatMap_bytes]
  unfold decode
  simp only [count_encode, destinations_encode, multicastPrefixLen_eq m.count_le, hbody,
    canonicalizeDestinations_sorted m.nonempty m.count_le m.sorted, m.new_self]
  rw [if_neg (Nat.not_lt.mpr (length_encode_le m)), if_neg (by unfold multicastCountLen; omega),
    if_neg (by omega), if_neg (Nat.not_lt.mpr m.count_le), if_neg (by omega)]

/-- What a decoded payload says of its bytes. -/
theorem decode_sound {b : Bytes} {m : MulticastPayload} (h : decode b = .ok m) :
    m.destinations = (destinations (beNat (slice 0 2 b)) b).insertionSort (· ≤ ·) ∧
      b = beBytes 2 m.destinations.length ++
        (destinations (beNat (slice 0 2 b)) b).flatMap NodeId.bytes ++ m.body := by
  simp only [decode] at h
  split at h
  · cases h
  · split at h
    · cases h
    · rename_i hshort
      split at h
      · cases h
      · split at h
        · cases h
        · rename_i hmany
          split at h
          · cases h
          · rename_i hlong
            split at h
            · cases h
            · rename_i sorted hsorted
              have hmax := Nat.le_of_not_lt hmany
              rw [multicastPrefixLen_eq hmax] at h hlong
              obtain ⟨hs, hne, hcount, hlt⟩ := canonicalizeDestinations_ok hsorted
              obtain ⟨hds, hbody⟩ := MulticastPayload.new_ok h
              have hsort : sorted.insertionSort (· ≤ ·) = sorted :=
                (hlt.imp le_of_lt).insertionSort_eq
              have hlength : m.destinations.length = beNat (slice 0 2 b) := by
                rw [hds, hsort, hs, List.length_insertionSort]
                simp [destinations]
              have htwo : beBytes 2 (beNat (slice 0 2 b)) = slice 0 2 b := by
                have hl : (slice 0 2 b).length = 2 :=
                  length_slice (by unfold multicastCountLen at hshort; omega)
                have := beBytes_beNat (slice 0 2 b)
                rwa [hl] at this
              refine ⟨by rw [hds, hsort, hs], ?_⟩
              rw [hlength, htwo, flatMap_destinations (by omega), hbody, List.append_assoc,
                ← drop_eq_slice_append, ← drop_eq_slice_append]
              rfl

end MulticastPayloadCodec

/-! ## Packets -/

/-- The 88 header bytes. -/
def forwardHeaderBytes (header : ForwardHeader) : Bytes :=
  [forwardPacketVersion, header.packetType.toByte, header.priority.toByte, header.ttl] ++
    (beBytes 4 header.flags.bits.toNat ++ (header.destination.bytes ++ (header.source.bytes ++
      (beBytes 8 header.flowId.toNat ++ beBytes 8 header.conflateKey.toNat))))

namespace ForwardPacketCodec

/-- What follows the header. -/
def wirePayload (packet : ForwardPacket) : Except ForwardPacketError Bytes :=
  if packet.header.packetType = .multicast then
    match MulticastPayload.new packet.multicastDestinations packet.payload with
    | .error e => .error (.invalidMulticast e)
    | .ok multicast => .ok (MulticastPayloadCodec.encode multicast)
  else if !packet.multicastDestinations.isEmpty then
    .error (.unexpectedMulticastDestinations packet.multicastDestinations.length)
  else .ok packet.payload

def encode (packet : ForwardPacket) : Except ForwardPacketError Bytes :=
  match wirePayload packet with
  | .error e => .error e
  | .ok wire =>
    if maxForwardPayloadLen < wire.length then .error (.payloadTooLarge wire.length)
    else .ok (forwardHeaderBytes packet.header ++ wire)

/-- The header fields after the version byte, at their offsets. -/
def header (encoded : Bytes) : Except ForwardPacketError ForwardHeader :=
  match PacketType.tryFrom (encoded.getD 1 0) with
  | .error e => .error e
  | .ok packetType =>
    match Priority.tryFrom (encoded.getD 2 0) with
    | .error e => .error e
    | .ok priority =>
      let bits := UInt32.ofNat (beNat (slice 4 4 encoded))
      match ForwardFlags.fromBits bits with
      | none => .error (.unsupportedFlags bits)
      | some flags =>
        .ok
          { packetType := packetType
            priority := priority
            ttl := encoded.getD 3 0
            flags := flags
            destination := nodeIdOf (slice 8 32 encoded)
            source := nodeIdOf (slice 40 32 encoded)
            flowId := UInt64.ofNat (beNat (slice 72 8 encoded))
            conflateKey := UInt64.ofNat (beNat (slice 80 8 encoded)) }

def decode (encoded : Bytes) : Except ForwardPacketError ForwardPacket :=
  if encoded.length < forwardHeaderLen then .error (.headerTooShort encoded.length)
  else if maxForwardPayloadLen < encoded.length - forwardHeaderLen then
    .error (.payloadTooLarge (encoded.length - forwardHeaderLen))
  else if encoded.getD 0 0 ≠ forwardPacketVersion then
    .error (.unsupportedVersion (encoded.getD 0 0))
  else
    match header encoded with
    | .error e => .error e
    | .ok header =>
      let wire := encoded.drop forwardHeaderLen
      if header.packetType = .multicast then
        match MulticastPayloadCodec.decode wire with
        | .error e => .error (.invalidMulticast e)
        | .ok multicast => .ok ⟨header, multicast.destinations, multicast.body⟩
      else .ok ⟨header, [], wire⟩

/-- The destination list as it stands in an encoded multicast packet. -/
def destinationsIn (encoded : Bytes) : List NodeId :=
  let wire := encoded.drop forwardHeaderLen
  MulticastPayloadCodec.destinations (beNat (slice 0 2 wire)) wire

/-! ### Headers -/

theorem beNat_u32 (n : UInt32) : beNat (beBytes 4 n.toNat) = n.toNat := by
  refine beNat_beBytes ?_
  have := n.toNat_lt
  omega

theorem beNat_u64 (n : UInt64) : beNat (beBytes 8 n.toNat) = n.toNat := by
  refine beNat_beBytes ?_
  have := n.toNat_lt
  omega

theorem beBytes_u32 {b : Bytes} (h : b.length = 4) :
    beBytes 4 (UInt32.ofNat (beNat b)).toNat = b := by
  have hlt := beNat_lt b
  have hb := beBytes_beNat b
  rw [h] at hlt hb
  rw [UInt32.toNat_ofNat_of_lt' (by omega), hb]

theorem beBytes_u64 {b : Bytes} (h : b.length = 8) :
    beBytes 8 (UInt64.ofNat (beNat b)).toNat = b := by
  have hlt := beNat_lt b
  have hb := beBytes_beNat b
  rw [h] at hlt hb
  rw [UInt64.toNat_ofNat_of_lt' (by omega), hb]

theorem length_forwardHeaderBytes (h : ForwardHeader) :
    (forwardHeaderBytes h).length = forwardHeaderLen := by
  simp [forwardHeaderBytes, forwardHeaderLen, h.destination.length_bytes, h.source.length_bytes]

section HeaderSlices

variable (h : ForwardHeader) (rest : Bytes)

theorem slice_flags :
    slice 4 4 (forwardHeaderBytes h ++ rest) = beBytes 4 h.flags.bits.toNat := by
  simp only [forwardHeaderBytes, List.append_assoc]
  exact slice_append rfl (length_beBytes _ _)

theorem slice_destination : slice 8 32 (forwardHeaderBytes h ++ rest) = h.destination.bytes := by
  simp only [forwardHeaderBytes, List.append_assoc]
  rw [slice_append_right (by simp)]
  exact slice_append (length_beBytes _ _) h.destination.length_bytes

theorem slice_source : slice 40 32 (forwardHeaderBytes h ++ rest) = h.source.bytes := by
  simp only [forwardHeaderBytes, List.append_assoc]
  rw [slice_append_right (by simp), slice_append_right (by simp)]
  simp only [length_beBytes, List.length_cons, List.length_nil]
  exact slice_append h.destination.length_bytes h.source.length_bytes

theorem slice_flowId : slice 72 8 (forwardHeaderBytes h ++ rest) = beBytes 8 h.flowId.toNat := by
  simp only [forwardHeaderBytes, List.append_assoc]
  rw [slice_append_right (by simp), slice_append_right (by simp),
    slice_append_right (by simp [h.destination.length_bytes])]
  simp only [length_beBytes, List.length_cons, List.length_nil, h.destination.length_bytes]
  exact slice_append h.source.length_bytes (length_beBytes _ _)

theorem slice_conflateKey :
    slice 80 8 (forwardHeaderBytes h ++ rest) = beBytes 8 h.conflateKey.toNat := by
  simp only [forwardHeaderBytes, List.append_assoc]
  rw [slice_append_right (by simp), slice_append_right (by simp),
    slice_append_right (by simp [h.destination.length_bytes]),
    slice_append_right (by simp [h.destination.length_bytes, h.source.length_bytes])]
  simp only [length_beBytes, List.length_cons, List.length_nil, h.destination.length_bytes,
    h.source.length_bytes]
  exact slice_append (length_beBytes _ _) (length_beBytes _ _)

theorem header_forwardHeaderBytes : header (forwardHeaderBytes h ++ rest) = .ok h := by
  have h1 : (forwardHeaderBytes h ++ rest).getD 1 0 = h.packetType.toByte := rfl
  have h2 : (forwardHeaderBytes h ++ rest).getD 2 0 = h.priority.toByte := rfl
  have h3 : (forwardHeaderBytes h ++ rest).getD 3 0 = h.ttl := rfl
  rw [header, h1, h2, h3, slice_flags, slice_destination, slice_source, slice_flowId,
    slice_conflateKey, beNat_u32, beNat_u64, beNat_u64, PacketType.tryFrom_toByte,
    Priority.tryFrom_toByte, UInt32.ofNat_toNat, UInt64.ofNat_toNat, UInt64.ofNat_toNat]
  simp only [ForwardFlags.fromBits_bits, nodeIdOf_bytes]

end HeaderSlices

theorem take_eq_slices (b : Bytes) :
    b.take forwardHeaderLen = b.take 4 ++ (slice 4 4 b ++ (slice 8 32 b ++ (slice 40 32 b ++
      (slice 72 8 b ++ slice 80 8 b)))) := by
  simp only [← List.append_assoc]
  rw [← take_add_slice, ← take_add_slice, ← take_add_slice, ← take_add_slice, ← take_add_slice]
  rfl

/-- An accepted header is the header of what was read from it. -/
theorem header_sound {b : Bytes} {h : ForwardHeader} (hlen : forwardHeaderLen ≤ b.length)
    (hversion : b.getD 0 0 = forwardPacketVersion) (hh : header b = .ok h) :
    b.take forwardHeaderLen = forwardHeaderBytes h := by
  unfold forwardHeaderLen at hlen
  simp only [header] at hh
  split at hh
  · cases hh
  · rename_i t ht
    split at hh
    · cases hh
    · rename_i p hp
      split at hh
      · cases hh
      · rename_i flags hflags
        cases hh
        have hfour : b.take 4 = [b.getD 0 0, b.getD 1 0, b.getD 2 0, b.getD 3 0] := by
          match b, hlen with
          | _ :: _ :: _ :: _ :: _, _ => rfl
        rw [take_eq_slices, forwardHeaderBytes, hfour, hversion,
          PacketType.toByte_of_tryFrom ht, Priority.toByte_of_tryFrom hp,
          ForwardFlags.bits_of_fromBits hflags, bytes_nodeIdOf (length_slice (by omega)),
          bytes_nodeIdOf (length_slice (by omega)), beBytes_u32 (length_slice (by omega)),
          beBytes_u64 (length_slice (by omega)), beBytes_u64 (length_slice (by omega))]

/-! ### Packets -/

/-- What the codec accepts. -/
def Encodable (p : ForwardPacket) : Prop :=
  (p.header.packetType ≠ .multicast ∧ p.multicastDestinations = [] ∧
    p.payload.length ≤ maxForwardPayloadLen) ∨
  (p.header.packetType = .multicast ∧
    (1 ≤ p.multicastDestinations.length ∧ p.multicastDestinations.length ≤ 64) ∧
    p.multicastDestinations.Nodup ∧
    2 + 32 * p.multicastDestinations.length + p.payload.length ≤ maxForwardPayloadLen)

/-- The bytes after the header, and what they make of the packet. -/
theorem wirePayload_ok {p : ForwardPacket} {wire : Bytes} (h : wirePayload p = .ok wire) :
    (p.header.packetType ≠ .multicast ∧ p.multicastDestinations = [] ∧ wire = p.payload) ∨
    (p.header.packetType = .multicast ∧ ∃ m : MulticastPayload,
      MulticastPayload.new p.multicastDestinations p.payload = .ok m ∧
        wire = MulticastPayloadCodec.encode m) := by
  simp only [wirePayload] at h
  split at h
  · rename_i hmulti
    split at h
    · cases h
    · rename_i m hm
      cases h
      exact .inr ⟨hmulti, m, hm, rfl⟩
  · rename_i huni
    split at h
    · cases h
    · rename_i hnone
      cases h
      exact .inl ⟨huni, by simpa using hnone, rfl⟩

theorem encode_ok {p : ForwardPacket} {b : Bytes} (h : encode p = .ok b) :
    ∃ wire, wirePayload p = .ok wire ∧ wire.length ≤ maxForwardPayloadLen ∧
      b = forwardHeaderBytes p.header ++ wire := by
  simp only [encode] at h
  split at h
  · cases h
  · rename_i wire hwire
    split at h
    · cases h
    · rename_i hle
      cases h
      exact ⟨wire, hwire, Nat.le_of_not_lt hle, rfl⟩

theorem encode_of_wirePayload {p : ForwardPacket} {wire : Bytes} (h : wirePayload p = .ok wire)
    (hle : wire.length ≤ maxForwardPayloadLen) :
    encode p = .ok (forwardHeaderBytes p.header ++ wire) := by
  simp only [encode, h, if_neg (Nat.not_lt.mpr hle)]

theorem wirePayload_multicast {p : ForwardPacket} {m : MulticastPayload}
    (hmulti : p.header.packetType = .multicast)
    (hm : MulticastPayload.new p.multicastDestinations p.payload = .ok m) :
    wirePayload p = .ok (MulticastPayloadCodec.encode m) := by
  simp only [wirePayload, if_pos hmulti, hm]

theorem wirePayload_other {p : ForwardPacket} (huni : p.header.packetType ≠ .multicast)
    (hnone : p.multicastDestinations = []) : wirePayload p = .ok p.payload := by
  simp [wirePayload, if_neg huni, hnone]

theorem encode_iff (p : ForwardPacket) : (∃ b, encode p = .ok b) ↔ Encodable p := by
  constructor
  · rintro ⟨b, h⟩
    obtain ⟨wire, hwire, hle, -⟩ := encode_ok h
    rcases wirePayload_ok hwire with ⟨huni, hnone, rfl⟩ | ⟨hmulti, m, hm, -⟩
    · exact .inl ⟨huni, hnone, hle⟩
    · exact .inr ⟨hmulti, MulticastPayload.new_iff.mp ⟨m, hm⟩⟩
  · rintro (⟨huni, hnone, hle⟩ | ⟨hmulti, hnew⟩)
    · exact ⟨_, encode_of_wirePayload (wirePayload_other huni hnone) hle⟩
    · obtain ⟨m, hm⟩ := MulticastPayload.new_iff.mpr hnew
      exact ⟨_, encode_of_wirePayload (wirePayload_multicast hmulti hm)
        (MulticastPayloadCodec.length_encode_le m)⟩

/-- Decoding a packet whose header and payload are known. -/
theorem decode_append {h : ForwardHeader} {wire : Bytes}
    (hle : wire.length ≤ maxForwardPayloadLen) :
    decode (forwardHeaderBytes h ++ wire) =
      if h.packetType = .multicast then
        match MulticastPayloadCodec.decode wire with
        | .error e => .error (.invalidMulticast e)
        | .ok multicast => .ok ⟨h, multicast.destinations, multicast.body⟩
      else .ok ⟨h, [], wire⟩ := by
  have hlen : (forwardHeaderBytes h ++ wire).length = forwardHeaderLen + wire.length := by
    rw [List.length_append, length_forwardHeaderBytes]
  have hdrop : (forwardHeaderBytes h ++ wire).drop forwardHeaderLen = wire :=
    List.drop_left' (length_forwardHeaderBytes h)
  have hversion : (forwardHeaderBytes h ++ wire).getD 0 0 = forwardPacketVersion := rfl
  rw [decode, if_neg (by omega), if_neg (by omega), if_neg (by rw [hversion]; simp),
    header_forwardHeaderBytes, hdrop]

/-- The two shapes of a decoded packet. -/
theorem decode_ok {b : Bytes} {p : ForwardPacket} (h : decode b = .ok p) :
    b = forwardHeaderBytes p.header ++ b.drop forwardHeaderLen ∧
      (b.drop forwardHeaderLen).length ≤ maxForwardPayloadLen ∧
      ((p.header.packetType ≠ .multicast ∧ p = ⟨p.header, [], b.drop forwardHeaderLen⟩) ∨
        (p.header.packetType = .multicast ∧ ∃ m : MulticastPayload,
          MulticastPayloadCodec.decode (b.drop forwardHeaderLen) = .ok m ∧
            p = ⟨p.header, m.destinations, m.body⟩)) := by
  simp only [decode] at h
  split at h
  · cases h
  · rename_i hshort
    split at h
    · cases h
    · rename_i hlong
      split at h
      · cases h
      · rename_i hversion
        split at h
        · cases h
        · rename_i hd hhead
          have htake := header_sound (Nat.le_of_not_lt hshort) (not_not.mp hversion) hhead
          have hb : b = forwardHeaderBytes hd ++ b.drop forwardHeaderLen := by
            rw [← htake, List.take_append_drop]
          have hle : (b.drop forwardHeaderLen).length ≤ maxForwardPayloadLen := by
            rw [List.length_drop]
            omega
          split at h
          · rename_i hmulti
            split at h
            · cases h
            · rename_i m hm
              cases h
              exact ⟨hb, hle, .inr ⟨hmulti, m, hm, rfl⟩⟩
          · rename_i huni
            cases h
            exact ⟨hb, hle, .inl ⟨huni, rfl⟩⟩

/-- The forwarder charges a packet the length of its encoding. -/
theorem length_encode {p : ForwardPacket} {b : Bytes} (h : encode p = .ok b) :
    b.length = p.encodedLen := by
  obtain ⟨wire, hwire, hle, rfl⟩ := encode_ok h
  have hmax : forwardHeaderLen + maxForwardPayloadLen < u64Max := by decide
  rw [List.length_append, length_forwardHeaderBytes, ForwardPacket.encodedLen]
  rcases wirePayload_ok hwire with ⟨huni, -, rfl⟩ | ⟨hmulti, m, hm, rfl⟩
  · have hhead : satAdd forwardHeaderLen 0 = forwardHeaderLen := satAdd_eq (by omega)
    simp only [if_neg huni]
    rw [hhead, satAdd_eq (by omega)]
  · obtain ⟨hds, hbody⟩ := MulticastPayload.new_ok hm
    have hlength : m.destinations.length = p.multicastDestinations.length := by
      rw [hds, List.length_insertionSort]
    have hlen := MulticastPayloadCodec.length_encode m
    rw [hlength, hbody] at hlen
    have hhead : satAdd forwardHeaderLen (2 + 32 * p.multicastDestinations.length) =
        forwardHeaderLen + (2 + 32 * p.multicastDestinations.length) := satAdd_eq (by omega)
    simp only [if_pos hmulti]
    rw [multicastPrefixLen_eq (hlength ▸ m.count_le), hlen, hhead, satAdd_eq (by omega)]
    omega

/-- A packet is read back as it was written, with its destinations sorted. -/
theorem decode_encode {p : ForwardPacket} {b : Bytes} (h : encode p = .ok b) :
    decode b = .ok { p with
      multicastDestinations := p.multicastDestinations.insertionSort (· ≤ ·) } := by
  obtain ⟨wire, hwire, hle, rfl⟩ := encode_ok h
  rw [decode_append hle]
  rcases wirePayload_ok hwire with ⟨huni, hnone, rfl⟩ | ⟨hmulti, m, hm, rfl⟩
  · rw [if_neg huni, hnone]
    rfl
  · obtain ⟨hds, hbody⟩ := MulticastPayload.new_ok hm
    rw [if_pos hmulti, MulticastPayloadCodec.decode_encode]
    simp only [hds, hbody]

/-- What was decoded can be encoded again, to the same bytes when the destinations were sorted. -/
theorem encode_decode {b : Bytes} {p : ForwardPacket} (h : decode b = .ok p) :
    ∃ b', encode p = .ok b' ∧ b'.length = b.length ∧ decode b' = .ok p ∧
      (b' = b ↔ p.header.packetType ≠ .multicast ∨ (destinationsIn b).Pairwise (· < ·)) := by
  obtain ⟨hb, hle, ⟨huni, hp⟩ | ⟨hmulti, m, hm, hp⟩⟩ := decode_ok h
  · have hwire : wirePayload p = .ok (b.drop forwardHeaderLen) := by
      rw [wirePayload_other huni (by rw [hp]), hp]
    have henc := encode_of_wirePayload hwire hle
    rw [← hb] at henc
    exact ⟨b, henc, rfl, h, by simp [huni]⟩
  · have hwire : wirePayload p = .ok (MulticastPayloadCodec.encode m) := by
      refine wirePayload_multicast hmulti ?_
      rw [hp]
      exact m.new_self
    have henc := encode_of_wirePayload hwire (MulticastPayloadCodec.length_encode_le m)
    obtain ⟨hsort, hbytes⟩ := MulticastPayloadCodec.decode_sound hm
    have hperm : m.destinations.Perm (destinationsIn b) := by
      rw [hsort]
      exact List.perm_insertionSort _ _
    refine ⟨_, henc, ?_, ?_, ?_⟩
    · rw [hb, List.length_append, List.length_append, hbytes, MulticastPayloadCodec.length_encode]
      simp only [List.length_append, length_beBytes, MulticastPayloadCodec.length_flatMap_bytes]
      rw [hperm.length_eq]
      rfl
    · rw [decode_append (MulticastPayloadCodec.length_encode_le m), if_pos hmulti,
        MulticastPayloadCodec.decode_encode]
      simp only
      rw [← hp]
    · constructor
      · intro heq
        -- the encoder writes sorted destinations, so equal bytes hold sorted destinations
        have hdrop : b.drop forwardHeaderLen = MulticastPayloadCodec.encode m := by
          rw [← heq]
          exact List.drop_left' (length_forwardHeaderBytes _)
        refine .inr ?_
        rw [destinationsIn, hdrop, MulticastPayloadCodec.count_encode,
          MulticastPayloadCodec.destinations_encode]
        exact m.sorted
      · rintro (huni | hlt)
        · exact absurd hmulti huni
        · have hsame : m.destinations = destinationsIn b := by
            rw [hsort]
            exact (hlt.imp le_of_lt).insertionSort_eq
          have hwireEq : MulticastPayloadCodec.encode m = b.drop forwardHeaderLen := by
            rw [hbytes, MulticastPayloadCodec.encode]
            nth_rewrite 2 [hsame]
            rfl
          rw [hwireEq, ← hb]

/-- The codec of forward packets is exact: what it accepts, the length it gives, and that decoding
and encoding are inverse up to the order of the destinations. -/
theorem forward_codec_exact :
    (∀ p : ForwardPacket, (∃ b, encode p = .ok b) ↔ Encodable p) ∧
    (∀ (p : ForwardPacket) (b : Bytes), encode p = .ok b → b.length = p.encodedLen ∧
      decode b = .ok { p with
        multicastDestinations := p.multicastDestinations.insertionSort (· ≤ ·) }) ∧
    ∀ (b : Bytes) (p : ForwardPacket), decode b = .ok p →
      ∃ b', encode p = .ok b' ∧ b'.length = b.length ∧ decode b' = .ok p ∧
        (b' = b ↔ p.header.packetType ≠ .multicast ∨ (destinationsIn b).Pairwise (· < ·)) :=
  ⟨encode_iff, fun _ _ h => ⟨length_encode h, decode_encode h⟩, fun _ _ h => encode_decode h⟩

/-- A multicast packet to nodes 3 and 2, in that order. -/
def multicastSample : ForwardPacket where
  header :=
    { packetType := .multicast
      priority := .p1
      ttl := 32
      flags := .empty
      destination := default
      source := .ofByte 1
      flowId := 7
      conflateKey := 0 }
  multicastDestinations := [.ofByte 3, .ofByte 2]
  payload := [1, 2, 3]

theorem forward_codec_exact_sample :
    Encodable multicastSample ∧ ∃ b, encode multicastSample = .ok b ∧
      b.length = multicastSample.encodedLen ∧
      decode b = .ok { multicastSample with
        multicastDestinations := multicastSample.multicastDestinations.insertionSort (· ≤ ·) } := by
  have hok : Encodable multicastSample := by
    refine .inr ⟨rfl, by decide, by decide, ?_⟩
    decide
  obtain ⟨b, hb⟩ := (forward_codec_exact.1 multicastSample).mpr hok
  exact ⟨hok, b, hb, forward_codec_exact.2.1 multicastSample b hb⟩

end ForwardPacketCodec
end Wire
end MeshBus
