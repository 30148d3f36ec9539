import MeshBus.Lib.Proto
import MeshBus.Wire

/-!
# PubSub.Topic

Topics, selectors and envelopes of the live Pub/Sub core (`mb-pubsub`).

Topic keys and selectors are built only through a check of the name and the partition, so the check
is a field of both. An envelope is four magic bytes and a protobuf message. The message is written
here as the encoder writes it; the reader is a parameter.
-/

namespace MeshBus
namespace PubSub

open Wire MeshBus.Proto

/-- The bytes `MBPS`. -/
def envelopeMagic : Bytes := [0x4d, 0x42, 0x50, 0x53]

def maxTopicNameLen : Nat := 1024
def maxPartitionLen : Nat := 64 * 1024

/-- What is left of a forward payload beside the list of one multicast destination. -/
def maxLiveEnvelopeLen : Nat := maxForwardPayloadLen - multicastCountLen - nodeIdLen

inductive TopicError where
  | emptyName
  | nameTooLong (length : Nat)
  | partitionTooLong (length : Nat)
deriving DecidableEq

def validateTopic (name partition : Bytes) : Except TopicError Unit :=
  if name.isEmpty then .error .emptyName
  else if maxTopicNameLen < name.length then .error (.nameTooLong name.length)
  else if maxPartitionLen < partition.length then .error (.partitionTooLong partition.length)
  else .ok ()

theorem validateTopic_iff {name partition : Bytes} :
    validateTopic name partition = .ok () ↔
      name ≠ [] ∧ name.length ≤ maxTopicNameLen ∧ partition.length ≤ maxPartitionLen := by
  unfold validateTopic
  split
  · simp_all
  · split
    · simp_all
    · split
      · simp_all
      · simp_all

structure TopicKey where
  name : Bytes
  partition : Bytes
  valid : validateTopic name partition = .ok ()
deriving DecidableEq

namespace TopicKey

def new (name partition : Bytes) : Except TopicError TopicKey :=
  match h : validateTopic name partition with
  | .ok () => .ok ⟨name, partition, h⟩
  | .error e => .error e

/-- The topic with a name of one byte and no partition. -/
def ofByte (value : UInt8) : TopicKey := ⟨[value], [], rfl⟩

theorem new_self (topic : TopicKey) : new topic.name topic.partition = .ok topic := by
  unfold new
  split
  · rfl
  · rename_i e h
    rw [topic.valid] at h
    cases h

/-- `#[derive(Ord)]`: the name first. -/
instance : LinearOrder TopicKey :=
  LinearOrder.lift' (fun t => toLex (t.name, t.partition)) fun a b h => by
    cases a; cases b
    simpa using h

end TopicKey

inductive TopicMode where
  | log
  | latest
deriving DecidableEq

structure TopicPolicy where
  priority : Priority
  mode : TopicMode
deriving DecidableEq

structure TopicPolicies where
  policies : OrdMap Bytes TopicPolicy
  valid : ∀ name ∈ policies, validateTopic name [] = .ok ()

namespace TopicPolicies

def empty : TopicPolicies := ⟨∅, by simp⟩

def insert (self : TopicPolicies) (name : Bytes) (policy : TopicPolicy)
    (h : validateTopic name [] = .ok ()) : TopicPolicies where
  policies := self.policies.insert name policy
  valid other hother := by
    rcases (OrdMap.mem_insert ..).mp hother with rfl | hother
    · exact h
    · exact self.valid other hother

/-- The loop of the source over the policies still to be collected. -/
def collect : TopicPolicies → List (Bytes × TopicPolicy) → Except TopicError TopicPolicies
  | collected, [] => .ok collected
  | collected, (name, policy) :: rest =>
    match h : validateTopic name [] with
    | .error e => .error e
    | .ok () => collect (collected.insert name policy h) rest

def new (policies : List (Bytes × TopicPolicy)) : Except TopicError TopicPolicies :=
  collect empty policies

def get (self : TopicPolicies) (topicName : Bytes) : Option TopicPolicy := self.policies[topicName]?

end TopicPolicies

abbrev SubId := Nat

/-- One partition of a topic, or all of them. -/
structure TopicSelector where
  name : Bytes
  partition : Option Bytes
  valid : validateTopic name (partition.getD []) = .ok ()
deriving DecidableEq

namespace TopicSelector

def exact (topic : TopicKey) : TopicSelector := ⟨topic.name, some topic.partition, topic.valid⟩

def allPartitions (name : Bytes) : Except TopicError TopicSelector :=
  match h : validateTopic name [] with
  | .ok () => .ok ⟨name, none, h⟩
  | .error e => .error e

/-- The source's `matches`. -/
def matchesTopic (self : TopicSelector) (topic : TopicKey) : Bool :=
  self.name == topic.name &&
    match self.partition with
    | none => true
    | some partition => partition == topic.partition

/-- `#[derive(Ord)]`: the name first; no partition comes before every partition. -/
instance : LinearOrder TopicSelector :=
  LinearOrder.lift' (β := Bytes ×ₗ WithBot Bytes) (fun s => toLex (s.name, s.partition))
    fun a b h => by
      cases a; cases b
      cases toLex.injective h
      rfl

end TopicSelector

structure DiscoveryIndex where
  subscribersOf : OrdMap TopicSelector (OrdSet NodeId)

namespace DiscoveryIndex

def empty : DiscoveryIndex := ⟨∅⟩

def setSubscribers (self : DiscoveryIndex) (selector : TopicSelector)
    (subscribers : List NodeId) : DiscoveryIndex :=
  ⟨self.subscribersOf.insert selector (.ofList subscribers)⟩

def subscribers (self : DiscoveryIndex) (topic : TopicKey) : OrdSet NodeId :=
  .ofList ((self.subscribersOf.toList.filter fun e => e.1.matchesTopic topic).flatMap
    fun e => e.2.toList)

end DiscoveryIndex

structure Envelope where
  origin : NodeId
  topic : TopicKey
  seq : UInt64
  tsMs : UInt64
  payload : Bytes
deriving DecidableEq

structure WireEnvelope where
  origin : Bytes
  topic : Bytes
  partition : Bytes
  seq : UInt64
  tsMs : UInt64
  payload : Bytes
deriving DecidableEq

def WireEnvelope.encode (m : WireEnvelope) : Bytes :=
  bytesField 1 m.origin ++ (bytesField 2 m.topic ++ (bytesField 3 m.partition ++
    (varintField 4 m.seq.toNat ++ (varintField 5 m.tsMs.toNat ++ bytesField 6 m.payload))))

inductive EnvelopeError where
  | notPubSub
  | protobuf
  | invalidOriginLength (length : Nat)
  | invalidSequence
  | invalidTopic (error : TopicError)
deriving DecidableEq

namespace EnvelopeCodec

def isEnvelope (encoded : Bytes) : Bool := envelopeMagic.isPrefixOf encoded

/-- The message of an envelope. -/
def wire (envelope : Envelope) : WireEnvelope where
  origin := envelope.origin.bytes
  topic := envelope.topic.name
  partition := envelope.topic.partition
  seq := envelope.seq
  tsMs := envelope.tsMs
  payload := envelope.payload

def encode (envelope : Envelope) : Except EnvelopeError Bytes :=
  match validateTopic envelope.topic.name envelope.topic.partition with
  | .error e => .error (.invalidTopic e)
  | .ok () =>
    if envelope.seq = 0 then .error .invalidSequence
    else .ok (envelopeMagic ++ (wire envelope).encode)

def decode (prost : Bytes → Option WireEnvelope) (encoded : Bytes) :
    Except EnvelopeError Envelope :=
  if !isEnvelope encoded then .error .notPubSub
  else
    match prost (encoded.drop envelopeMagic.length) with
    | none => .error .protobuf
    | some wire =>
      if h : wire.origin.length = 32 then
        if wire.seq = 0 then .error .invalidSequence
        else
          match TopicKey.new wire.topic wire.partition with
          | .error e => .error (.invalidTopic e)
          | .ok topic => .ok ⟨⟨wire.origin, h⟩, topic, wire.seq, wire.tsMs, wire.payload⟩
      else .error (.invalidOriginLength wire.origin.length)

/-- A validated topic and a non-zero sequence number always encode. -/
theorem encode_eq {envelope : Envelope} (h : envelope.seq ≠ 0) :
    encode envelope = .ok (envelopeMagic ++ (wire envelope).encode) := by
  simp only [encode, envelope.topic.valid, if_neg h]

/-- What was encoded is decoded, by a reader that reads the message. -/
theorem decode_encode {prost : Bytes → Option WireEnvelope} {envelope : Envelope} {encoded : Bytes}
    (hread : prost (wire envelope).encode = some (wire envelope))
    (h : encode envelope = .ok encoded) : decode prost encoded = .ok envelope := by
  have hseq : envelope.seq ≠ 0 := by
    intro hzero
    simp only [encode, envelope.topic.valid, if_pos hzero] at h
    cases h
  rw [encode_eq hseq] at h
  cases h
  have hmagic : isEnvelope (envelopeMagic ++ (wire envelope).encode) = true :=
    List.isPrefixOf_iff_prefix.mpr (List.prefix_append _ _)
  simp only [decode, hmagic, Bool.not_true, Bool.false_eq_true, if_false, List.drop_left, hread]
  simp only [wire, envelope.origin.length_bytes, dif_pos, if_neg hseq, TopicKey.new_self]

end EnvelopeCodec

end PubSub
end MeshBus
