import MeshBus.Lib.Proto
import MeshBus.Control.Lsa
import MeshBus.Wire.Forward
import MeshBus.Wire.Frame

/-!
# Runtime.Codec

Control frames on the wire: the messages of `control.proto`, and `encode_control_frame` and
`decode_control_frame` of `mb-runtime`. Encoding is the standard proto3 encoding. Decoding a
message is left to the protobuf library, which is a parameter (`Decoders`).
-/

namespace MeshBus
namespace Runtime

open Control Wire

/-! ## Messages -/

namespace Proto

open MeshBus.Proto

structure Adjacency where
  peer : Bytes
  cost : UInt32

structure TopicAd where
  topic : Bytes
  partition : Bytes
  role : UInt32
  headSeq : UInt64
  tailSeq : UInt64

structure Lsa where
  origin : Bytes
  seq : UInt64
  ttlSec : UInt32
  adjacencies : List Adjacency
  topics : List TopicAd
  epoch : UInt32

structure SignedLsa where
  lsaBytes : Bytes
  signature : Bytes

structure DigestEntry where
  origin : Bytes
  epoch : UInt32
  seq : UInt64

structure Digest where
  entries : List DigestEntry

structure DigestReq where
  origins : List Bytes

def Adjacency.encode (m : Adjacency) : Bytes :=
  bytesField 1 m.peer ++ varintField 2 m.cost.toNat

def TopicAd.encode (m : TopicAd) : Bytes :=
  bytesField 1 m.topic ++ (bytesField 2 m.partition ++ (varintField 3 m.role.toNat ++
    (varintField 4 m.headSeq.toNat ++ varintField 5 m.tailSeq.toNat)))

def Lsa.encode (m : Lsa) : Bytes :=
  bytesField 1 m.origin ++ (varintField 2 m.seq.toNat ++ (varintField 4 m.ttlSec.toNat ++
    (m.adjacencies.flatMap (fun a => lenField 10 a.encode) ++
      (m.topics.flatMap (fun ad => lenField 13 ad.encode) ++ varintField 20 m.epoch.toNat))))

def SignedLsa.encode (m : SignedLsa) : Bytes :=
  bytesField 1 m.lsaBytes ++ bytesField 2 m.signature

def DigestEntry.encode (m : DigestEntry) : Bytes :=
  bytesField 1 m.origin ++ (varintField 2 m.epoch.toNat ++ varintField 3 m.seq.toNat)

def Digest.encode (m : Digest) : Bytes := m.entries.flatMap fun e => lenField 1 e.encode

def DigestReq.encode (m : DigestReq) : Bytes := m.origins.flatMap (lenField 1)

/-- The decoders of the protobuf library; `none` is a `DecodeError`. -/
structure Decoders where
  signedLsa : Bytes → Option SignedLsa
  lsa : Bytes → Option Lsa
  digest : Bytes → Option Digest
  digestReq : Bytes → Option DigestReq

end Proto

/-! ## Frames -/

/-- The errors of the codec. -/
inductive RuntimeError where
  | unexpectedFrame (frameType : FrameType) (channel : Channel)
  | protobuf
  | invalidNodeIdLength (length : Nat)
  | invalidLinkCost (cost : UInt32)
  | invalidLsaTtl (ttlSec : UInt32)
  | invalidTopicName
  | invalidTopicRole (role : UInt32)
  | topicNameTooLong (length : Nat)
  | topicPartitionTooLong (length : Nat)
  | duplicateTopicAd
  | tooManyElements (field : String) (count limit : Nat)
  | forwardPacket (error : ForwardPacketError)
deriving DecidableEq

def ensureLimit (field : String) (count limit : Nat) : Except RuntimeError Unit :=
  if limit < count then .error (.tooManyElements field count limit) else .ok ()

def validateTopicAd (topic partition : Bytes) (rawRoles : UInt32) :
    Except RuntimeError TopicRoles :=
  if topic.isEmpty then .error .invalidTopicName
  else if maxTopicNameLen < topic.length then .error (.topicNameTooLong topic.length)
  else if maxTopicPartitionLen < partition.length then
    .error (.topicPartitionTooLong partition.length)
  -- `u8::try_from`
  else if 256 ≤ rawRoles.toNat then .error (.invalidTopicRole rawRoles)
  else
    match TopicRoles.fromBits (UInt8.ofNat rawRoles.toNat) with
    | none => .error (.invalidTopicRole rawRoles)
    | some roles => .ok roles

/-- `!(1..=MAX_LSA_TTL_SEC).contains(&ttl_sec)`. -/
def ensureTtl (ttlSec : UInt32) : Except RuntimeError Unit :=
  if 1 ≤ ttlSec ∧ ttlSec ≤ maxLsaTtlSec then .ok () else .error (.invalidLsaTtl ttlSec)

/-- The loop over the topics of an LSA, with the pairs seen so far. -/
def ensureTopics (seen : List (Bytes × Bytes)) : List TopicAd → Except RuntimeError Unit
  | [] => .ok ()
  | ad :: ads =>
    match validateTopicAd ad.topic ad.partition ad.roles.bits.toUInt32 with
    | .error e => .error e
    | .ok _ =>
      if (ad.topic, ad.partition) ∈ seen then .error .duplicateTopicAd
      else ensureTopics ((ad.topic, ad.partition) :: seen) ads

/-- The protobuf message `encode_lsa` builds. -/
def wireLsa (lsa : Lsa) : Proto.Lsa where
  origin := lsa.origin.bytes
  seq := lsa.seq
  ttlSec := lsa.ttlSec
  adjacencies := lsa.adjacencies.map fun a => ⟨a.peer.bytes, UInt32.ofNat a.cost.val⟩
  topics := lsa.topics.map fun ad =>
    ⟨ad.topic, ad.partition, ad.roles.bits.toUInt32, ad.headSeq, ad.tailSeq⟩
  epoch := lsa.epoch

def encodeLsa (lsa : Lsa) : Bytes := (wireLsa lsa).encode

/-- The payload of an LSA frame: a relayed message keeps the bytes it arrived with. -/
def signedLsa (message : LsaMessage) : Proto.SignedLsa where
  lsaBytes :=
    if message.canonicalBytes.isEmpty then encodeLsa message.lsa else message.canonicalBytes
  signature := message.signature

def encodeControlFrame : ControlFrame → Except RuntimeError WireFrame
  | .lsa message => do
    ensureTtl message.lsa.ttlSec
    ensureLimit "Lsa.adjacencies" message.lsa.adjacencies.length maxLsaAdjacencies
    ensureLimit "Lsa.topics" message.lsa.topics.length maxLsaTopicAds
    ensureTopics [] message.lsa.topics
    .ok (.control .lsa (signedLsa message).encode)
  | .digest entries => do
    ensureLimit "Digest.entries" entries.length maxDigestEntries
    .ok (.control .digest (Proto.Digest.encode
      ⟨entries.map fun e => ⟨e.origin.bytes, e.epoch, e.seq⟩⟩))
  | .digestReq origins => do
    ensureLimit "DigestReq.origins" origins.length maxDigestReqOrigins
    .ok (.control .digestReq (Proto.DigestReq.encode ⟨origins.map NodeId.bytes⟩))

def decodeNodeId (bytes : Bytes) : Except RuntimeError NodeId :=
  if h : bytes.length = 32 then .ok ⟨bytes, h⟩ else .error (.invalidNodeIdLength bytes.length)

def decodeAdjacency (wire : Proto.Adjacency) : Except RuntimeError Adjacency := do
  let peer ← decodeNodeId wire.peer
  -- `u16::try_from`, then `LinkCost::new`
  if h : wire.cost.toNat < 2 ^ 16 then
    match LinkCost.new wire.cost.toNat h with
    | none => .error (.invalidLinkCost wire.cost)
    | some cost => .ok ⟨peer, cost⟩
  else .error (.invalidLinkCost wire.cost)

def decodeTopicAd (wire : Proto.TopicAd) : Except RuntimeError TopicAd := do
  let roles ← validateTopicAd wire.topic wire.partition wire.role
  .ok ⟨wire.topic, wire.partition, roles, wire.headSeq, wire.tailSeq⟩

def decodeLsa (wire : Proto.Lsa) : Except RuntimeError Lsa := do
  let origin ← decodeNodeId wire.origin
  ensureTtl wire.ttlSec
  ensureLimit "Lsa.adjacencies" wire.adjacencies.length maxLsaAdjacencies
  ensureLimit "Lsa.topics" wire.topics.length maxLsaTopicAds
  let adjacencies ← wire.adjacencies.mapM decodeAdjacency
  let topics ← wire.topics.mapM decodeTopicAd
  if (topics.map fun ad => (ad.topic, ad.partition)).toFinset.card ≠ topics.length then
    .error .duplicateTopicAd
  else .ok ⟨origin, wire.epoch, wire.seq, wire.ttlSec, adjacencies, topics⟩

/-- A `DecodeError` is returned as `RuntimeError::Protobuf`. -/
def orProtobuf {α : Type} : Option α → Except RuntimeError α
  | none => .error .protobuf
  | some a => .ok a

def decodeControlFrame (prost : Proto.Decoders) (frame : WireFrame) :
    Except RuntimeError ControlFrame :=
  if frame.channel ≠ .control then .error (.unexpectedFrame frame.frameType frame.channel)
  else
    match frame.frameType with
    | .lsa => do
      let signed ← orProtobuf (prost.signedLsa frame.payload)
      let wireLsa ← orProtobuf (prost.lsa signed.lsaBytes)
      let lsa ← decodeLsa wireLsa
      .ok (.lsa ⟨lsa, signed.lsaBytes, signed.signature⟩)
    | .digest => do
      let digest ← orProtobuf (prost.digest frame.payload)
      ensureLimit "Digest.entries" digest.entries.length maxDigestEntries
      let entries ← digest.entries.mapM fun e => do
        let origin ← decodeNodeId e.origin
        .ok (⟨origin, e.epoch, e.seq⟩ : DigestEntry)
      .ok (.digest entries)
    | .digestReq => do
      let request ← orProtobuf (prost.digestReq frame.payload)
      ensureLimit "DigestReq.origins" request.origins.length maxDigestReqOrigins
      let origins ← request.origins.mapM decodeNodeId
      .ok (.digestReq origins)
    | .linkHello | .forward | .circuit | .credit | .ping =>
      .error (.unexpectedFrame frame.frameType frame.channel)

/-! ## What the encoder accepts -/

theorem ok_bind {ε α β : Type} {x : Except ε α} {f : α → Except ε β} {b : β}
    (h : x >>= f = .ok b) : ∃ a, x = .ok a ∧ f a = .ok b := by
  cases x with
  | error e => cases h
  | ok a => exact ⟨a, rfl, h⟩

/-- A `collect::<Result<Vec<_>, _>>` succeeds when every element does. -/
theorem mapM_ok {ε α β : Type} {f : α → Except ε β} {xs : List α} {ys : List β} :
    xs.mapM f = .ok ys ↔ List.Forall₂ (fun x y => f x = .ok y) xs ys := by
  induction xs generalizing ys with
  | nil => cases ys <;> simp [pure, Except.pure]
  | cons x xs ih =>
    rw [List.mapM_cons]
    constructor
    · intro h
      obtain ⟨y, hy, h⟩ := ok_bind h
      obtain ⟨rest, hrest, h⟩ := ok_bind h
      cases h
      exact .cons hy (ih.mp hrest)
    · intro h
      cases h with
      | cons hy hrest =>
        rw [hy, ih.mpr hrest]
        rfl

theorem mem_of_forall₂ {α β : Type} {r : α → β → Prop} {xs : List α} {ys : List β}
    (h : List.Forall₂ r xs ys) {y : β} (hy : y ∈ ys) : ∃ x ∈ xs, r x y := by
  induction h with
  | nil => cases hy
  | cons hxy _ ih =>
    rcases List.mem_cons.mp hy with rfl | hy
    · exact ⟨_, List.mem_cons_self, hxy⟩
    · obtain ⟨x, hx, hxy⟩ := ih hy
      exact ⟨x, List.mem_cons_of_mem _ hx, hxy⟩

theorem orProtobuf_ok {α : Type} {read : Option α} {a : α} :
    orProtobuf read = .ok a ↔ read = some a := by
  cases read with
  | none => simp [orProtobuf]
  | some b => simp [orProtobuf]

theorem ensureLimit_ok {field : String} {count limit : Nat} :
    ensureLimit field count limit = .ok () ↔ count ≤ limit := by
  rw [ensureLimit]
  split
  · rename_i h
    simp only [reduceCtorEq, false_iff]
    omega
  · rename_i h
    simp only [true_iff]
    omega

theorem ensureTtl_ok {ttlSec : UInt32} :
    ensureTtl ttlSec = .ok () ↔ 1 ≤ ttlSec ∧ ttlSec ≤ maxLsaTtlSec := by
  rw [ensureTtl]
  split
  · rename_i h
    simp [h]
  · rename_i h
    simp only [reduceCtorEq, false_iff]
    exact h

/-- An ad of the limits passes, with its own roles. -/
theorem validateTopicAd_ok {ad : TopicAd} {roles : TopicRoles} :
    validateTopicAd ad.topic ad.partition ad.roles.bits.toUInt32 = .ok roles ↔
      ValidAd ad ∧ ad.roles = roles := by
  have hbits : UInt8.ofNat ad.roles.bits.toUInt32.toNat = ad.roles.bits := by
    rw [UInt8.toNat_toUInt32, UInt8.ofNat_toNat]
  have hlt : ad.roles.bits.toUInt32.toNat < 256 := by
    rw [UInt8.toNat_toUInt32]
    exact ad.roles.bits.toNat_lt
  simp only [validateTopicAd, hbits, TopicRoles.fromBits_bits, if_neg (Nat.not_le.mpr hlt), ValidAd]
  by_cases h1 : ad.topic = []
  · simp [h1]
  · by_cases h2 : maxTopicNameLen < ad.topic.length
    · simp [h1, h2]
    · by_cases h3 : maxTopicPartitionLen < ad.partition.length
      · simp [h1, h2, h3]
      · simp [h1, h2, h3, Nat.not_lt.mp h2, Nat.not_lt.mp h3]

theorem ensureTopics_ok {ads : List TopicAd} {seen : List (Bytes × Bytes)} :
    ensureTopics seen ads = .ok () ↔
      (∀ ad ∈ ads, ValidAd ad ∧ (ad.topic, ad.partition) ∉ seen) ∧
        (ads.map fun ad => (ad.topic, ad.partition)).Nodup := by
  induction ads generalizing seen with
  | nil => simp [ensureTopics]
  | cons ad ads ih =>
    rw [ensureTopics]
    cases hv : validateTopicAd ad.topic ad.partition ad.roles.bits.toUInt32 with
    | error e =>
      have hnot : ¬ ValidAd ad := by
        intro hval
        cases hv.symm.trans (validateTopicAd_ok.mpr ⟨hval, rfl⟩)
      simp [hnot]
    | ok roles =>
      have hval : ValidAd ad := (validateTopicAd_ok.mp hv).1
      simp only
      split
      · rename_i hseen
        simp [hseen]
      · rename_i hseen
        rw [ih]
        simp only [List.mem_cons, forall_eq_or_imp, List.map_cons, List.nodup_cons, List.mem_map,
          not_or, hval, hseen, not_false_eq_true, true_and]
        constructor
        · rintro ⟨hall, hnd⟩
          refine ⟨fun a ha => ⟨(hall a ha).1, (hall a ha).2.2⟩, ?_, hnd⟩
          rintro ⟨a, ha, heq⟩
          exact (hall a ha).2.1 heq
        · rintro ⟨hall, hnew, hnd⟩
          exact ⟨fun a ha => ⟨(hall a ha).1, fun heq => hnew ⟨a, ha, heq⟩, (hall a ha).2⟩, hnd⟩

/-- An LSA frame is encoded exactly when the LSA is valid. -/
theorem encodeControlFrame_lsa {message : LsaMessage} {frame : WireFrame} :
    encodeControlFrame (.lsa message) = .ok frame ↔
      validLsa message.lsa = true ∧ frame = .control .lsa (signedLsa message).encode := by
  have hvalid : validLsa message.lsa = true ↔ ensureTtl message.lsa.ttlSec = .ok () ∧
      ensureLimit "Lsa.adjacencies" message.lsa.adjacencies.length maxLsaAdjacencies = .ok () ∧
      ensureLimit "Lsa.topics" message.lsa.topics.length maxLsaTopicAds = .ok () ∧
      ensureTopics [] message.lsa.topics = .ok () := by
    rw [validLsa_iff, ensureTtl_ok, ensureLimit_ok, ensureLimit_ok, ensureTopics_ok]
    simp only [List.not_mem_nil, not_false_eq_true, and_true]
  rw [hvalid, encodeControlFrame]
  constructor
  · intro h
    obtain ⟨_, h1, h⟩ := ok_bind h
    obtain ⟨_, h2, h⟩ := ok_bind h
    obtain ⟨_, h3, h⟩ := ok_bind h
    obtain ⟨_, h4, h⟩ := ok_bind h
    cases h
    exact ⟨⟨h1, h2, h3, h4⟩, rfl⟩
  · rintro ⟨⟨h1, h2, h3, h4⟩, rfl⟩
    rw [h1, h2, h3, h4]
    rfl

/-! ## What the decoder accepts -/

/-- An LSA frame is read in three steps, and the message keeps the bytes it was read from. -/
theorem decodeControlFrame_lsa {prost : Proto.Decoders} {frame : WireFrame} {message : LsaMessage} :
    decodeControlFrame prost frame = .ok (.lsa message) ↔
      frame.channel = .control ∧ frame.frameType = .lsa ∧
      ∃ signed wire, prost.signedLsa frame.payload = some signed ∧
        prost.lsa signed.lsaBytes = some wire ∧ decodeLsa wire = .ok message.lsa ∧
        message.canonicalBytes = signed.lsaBytes ∧ message.signature = signed.signature := by
  constructor
  · intro h
    rw [decodeControlFrame] at h
    split at h
    · cases h
    · rename_i hchannel
      refine ⟨not_not.mp hchannel, ?_⟩
      split at h
      · rename_i htype
        obtain ⟨signed, hsigned, h⟩ := ok_bind h
        obtain ⟨wire, hwire, h⟩ := ok_bind h
        obtain ⟨lsa, hlsa, h⟩ := ok_bind h
        cases h
        exact ⟨htype, signed, wire, orProtobuf_ok.mp hsigned, orProtobuf_ok.mp hwire, hlsa, rfl,
          rfl⟩
      · obtain ⟨_, -, h⟩ := ok_bind h
        obtain ⟨_, -, h⟩ := ok_bind h
        obtain ⟨_, -, h⟩ := ok_bind h
        cases h
      · obtain ⟨_, -, h⟩ := ok_bind h
        obtain ⟨_, -, h⟩ := ok_bind h
        obtain ⟨_, -, h⟩ := ok_bind h
        cases h
      all_goals cases h
  · rintro ⟨hchannel, htype, signed, wire, hsigned, hwire, hlsa, hbytes, hsig⟩
    obtain ⟨lsa, canonicalBytes, signature⟩ := message
    subst hbytes hsig
    simp only [decodeControlFrame, hchannel, htype, hsigned, orProtobuf, ne_eq, not_true_eq_false,
      if_false]
    simp only [bind, Except.bind, hwire, hlsa]

/-! ## Forward frames -/

def channelForPriority : Priority → Channel
  | .p0 => .pubSubP0
  | .p1 => .pubSubP1
  | .p2 => .pubSubP2
  | .p3 => .pubSubP3

def decodeForwardFrame (frame : WireFrame) : Except RuntimeError ForwardPacket :=
  if frame.frameType ≠ .forward then .error (.unexpectedFrame frame.frameType frame.channel)
  else
    match ForwardPacketCodec.decode frame.payload with
    | .error e => .error (.forwardPacket e)
    | .ok packet =>
      if frame.channel ≠ channelForPriority packet.header.priority then
        .error (.unexpectedFrame .forward frame.channel)
      else .ok packet

theorem decodeForwardFrame_ok {frame : WireFrame} {packet : ForwardPacket}
    (h : decodeForwardFrame frame = .ok packet) :
    ForwardPacketCodec.decode frame.payload = .ok packet := by
  unfold decodeForwardFrame at h
  split at h
  · cases h
  · split at h
    · cases h
    · rename_i p hdec
      split at h
      · cases h
      · cases h
        exact hdec

end Runtime
end MeshBus
