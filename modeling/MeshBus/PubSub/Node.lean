import MeshBus.PubSub.Topic

/-!
# PubSub.Node

The live Pub/Sub core of a node (`PubSub` of `mb-pubsub`): the local subscriptions, the last
sequence number of every topic the node publishes on, and for every origin and topic the window of
sequence numbers already seen.

`none` is a panic. Whether a failed `debug_assert!` panics depends on the build and is the argument
`debug`; the protobuf reader is the argument `prost`.
-/

namespace MeshBus
namespace PubSub

open Wire

structure DeliveredMessage where
  envelope : Envelope
  isBackfill : Bool
deriving DecidableEq

inductive PubSubEvent where
  | localPublish (topic : TopicKey) (payload : Bytes)
  | localSubscribe (subId : SubId) (selector : TopicSelector)
  | localUnsubscribe (subId : SubId)
  | inbound (source : NodeId) (payload : Bytes)
  | discoveryUpdated (discovery : DiscoveryIndex)

inductive PubSubRejectReason where
  | unknownTopic (name : Bytes)
  | sequenceExhausted (topic : TopicKey)
  | envelopeTooLarge (encodedLen max : Nat)
  | invalidEnvelope (error : EnvelopeError)
  | sourceMismatch (header envelope : NodeId)
deriving DecidableEq

inductive PubSubDropReason where
  | duplicateOrTooOld (origin : NodeId) (topic : TopicKey) (seq : UInt64)
deriving DecidableEq

inductive PubSubAction where
  | sendMulticast (destinations : List NodeId) (priority : Priority) (flowId conflateKey : UInt64)
      (conflatable : Bool) (payload : Bytes)
  | deliverToApp (subId : SubId) (message : DeliveredMessage)
  | localSubscriptionsChanged (selectors : List TopicSelector)
  | published (topic : TopicKey) (seq : UInt64)
  | rejected (reason : PubSubRejectReason)
  | dropped (reason : PubSubDropReason)
deriving DecidableEq

structure ReceiveWindow where
  highest : UInt64
  bitmap : UInt64
deriving DecidableEq

namespace ReceiveWindow

def first (seq : UInt64) : ReceiveWindow := ⟨seq, 1⟩

def accept (self : ReceiveWindow) (seq : UInt64) : Bool × ReceiveWindow :=
  if self.highest < seq then
    let shift := seq - self.highest
    let bitmap := if 64 ≤ shift then 1 else self.bitmap <<< shift ||| 1
    (true, ⟨seq, bitmap⟩)
  else
    let age := self.highest - seq
    if 64 ≤ age then (false, self)
    else
      let bit := 1 <<< age
      if self.bitmap &&& bit ≠ 0 then (false, self)
      else (true, { self with bitmap := self.bitmap ||| bit })

end ReceiveWindow

/-- `slice::chunks` for at most `fuel` more chunks. -/
def chunksFor {α : Type*} (size : Nat) : Nat → List α → List (List α)
  | 0, _ => []
  | fuel + 1, xs => if xs.isEmpty then [] else xs.take size :: chunksFor size fuel (xs.drop size)

/-- `slice::chunks`; the chunk size must not be zero. -/
def chunks {α : Type*} (size : Nat) (xs : List α) : Option (List (List α)) :=
  if size = 0 then none else some (chunksFor size xs.length xs)

def stableHash (parts : List Bytes) : UInt64 :=
  let prime : UInt64 := 0x00000100000001b3
  parts.foldl
    (fun hash part =>
      (part.foldl (fun h byte => (h ^^^ byte.toUInt64) * prime) hash ^^^ 0xff) * prime)
    0xcbf29ce484222325

end PubSub

open PubSub in
structure PubSub where
  me : NodeId
  policies : TopicPolicies
  localSubscriptions : OrdMap SubId TopicSelector
  discovery : DiscoveryIndex
  nextSequences : OrdMap TopicKey UInt64
  received : OrdMap (NodeId ×ₗ TopicKey) ReceiveWindow

namespace PubSub

open Wire

def new (me : NodeId) (policies : TopicPolicies) : PubSub where
  me := me
  policies := policies
  localSubscriptions := ∅
  discovery := .empty
  nextSequences := ∅
  received := ∅

def effectiveSubscriptions (self : PubSub) : OrdSet TopicSelector :=
  .ofList self.localSubscriptions.values

def subscriptionChange (self : PubSub) (previous : OrdSet TopicSelector) : List PubSubAction :=
  let current := self.effectiveSubscriptions
  if current = previous then [] else [.localSubscriptionsChanged current.toList]

instance windowKeyTransCmp : Std.TransCmp (compare : NodeId ×ₗ TopicKey → _ → Ordering) :=
  inferInstance

/-- The step of `publish` and `receive` on the window of an origin and a topic, which the first
number creates. -/
def acceptSeq (received : OrdMap (NodeId ×ₗ TopicKey) ReceiveWindow) (origin : NodeId)
    (topic : TopicKey) (seq : UInt64) : Bool × OrdMap (NodeId ×ₗ TopicKey) ReceiveWindow :=
  match received[toLex (origin, topic)]? with
  | some window =>
    ((window.accept seq).1, received.insert (toLex (origin, topic)) (window.accept seq).2)
  | none => (true, received.insert (toLex (origin, topic)) (.first seq))

/-- The multicasts of one publication. -/
def sends (self : PubSub) (policy : TopicPolicy) (topic : TopicKey) (encoded : Bytes) :
    Option (List PubSubAction) := do
  let destinations := (self.discovery.subscribers topic).erase self.me
  let flowId := stableHash [topic.name, topic.partition]
  let conflateKey := stableHash [self.me.bytes, topic.partition]
  let destinationChunkLimit := min maxMulticastDestinations
    ((maxForwardPayloadLen - encoded.length - multicastCountLen) / nodeIdLen)
  let chunked ← chunks destinationChunkLimit destinations.toList
  some (chunked.map fun chunk => .sendMulticast chunk policy.priority flowId conflateKey
    (policy.mode = .latest && policy.priority = .p1) encoded)

def publish (debug : Bool) (self : PubSub) (now : MonoTime) (topic : TopicKey) (payload : Bytes) :
    Option (PubSub × List PubSubAction) :=
  match self.policies.get topic.name with
  | none => some (self, [.rejected (.unknownTopic topic.name)])
  | some policy =>
    -- `entry(..).or_default()` leaves an entry behind whatever follows
    let sequence := self.nextSequences[topic]?.getD 0
    let self := { self with nextSequences := self.nextSequences.insert topic sequence }
    if sequence.toNat = u64Max then some (self, [.rejected (.sequenceExhausted topic)])
    else
      let seq := sequence + 1
      let envelope : Envelope := ⟨self.me, topic, seq, .ofNat now, payload⟩
      match EnvelopeCodec.encode envelope with
      | .error _ => none
      | .ok encoded =>
        if maxLiveEnvelopeLen < encoded.length then
          some (self, [.rejected (.envelopeTooLarge encoded.length maxLiveEnvelopeLen)])
        else
          let (accepted, received) := acceptSeq self.received self.me topic seq
          -- the `debug_assert!` on the local window
          if debug && !accepted then none
          else do
            let self := { self with
              nextSequences := self.nextSequences.insert topic seq
              received := received }
            let sent ← self.sends policy topic encoded
            some (self, sent ++ [.published topic seq])

def localDeliveries (self : PubSub) (envelope : Envelope) : List PubSubAction :=
  (self.localSubscriptions.toList.filter fun e => e.2.matchesTopic envelope.topic).map
    fun e => .deliverToApp e.1 ⟨envelope, false⟩

def receive (prost : Bytes → Option WireEnvelope) (self : PubSub) (source : NodeId)
    (payload : Bytes) : PubSub × List PubSubAction :=
  match EnvelopeCodec.decode prost payload with
  | .error e => (self, [.rejected (.invalidEnvelope e)])
  | .ok envelope =>
    if envelope.origin ≠ source then
      (self, [.rejected (.sourceMismatch source envelope.origin)])
    else if (self.policies.get envelope.topic.name).isNone then
      (self, [.rejected (.unknownTopic envelope.topic.name)])
    else
      let (accepted, received) :=
        acceptSeq self.received envelope.origin envelope.topic envelope.seq
      let self := { self with received := received }
      if accepted then (self, self.localDeliveries envelope)
      else (self, [.dropped (.duplicateOrTooOld envelope.origin envelope.topic envelope.seq)])

def handle (prost : Bytes → Option WireEnvelope) (debug : Bool) (self : PubSub) (now : MonoTime) :
    PubSubEvent → Option (PubSub × List PubSubAction)
  | .localPublish topic payload => self.publish debug now topic payload
  | .localSubscribe subId selector =>
    let next := { self with localSubscriptions := self.localSubscriptions.insert subId selector }
    some (next, next.subscriptionChange self.effectiveSubscriptions)
  | .localUnsubscribe subId =>
    let next := { self with localSubscriptions := self.localSubscriptions.erase subId }
    some (next, next.subscriptionChange self.effectiveSubscriptions)
  | .inbound source payload => some (self.receive prost source payload)
  | .discoveryUpdated discovery => some ({ self with discovery := discovery }, [])

/-! ## What a step does -/

/-- The envelope an inbound payload is taken for: one of its source, on a topic with a policy. -/
def Admits (prost : Bytes → Option WireEnvelope) (self : PubSub) (source : NodeId) (payload : Bytes)
    (envelope : Envelope) : Prop :=
  EnvelopeCodec.decode prost payload = .ok envelope ∧ envelope.origin = source ∧
    (self.policies.get envelope.topic.name).isSome

theorem receive_admitted {prost : Bytes → Option WireEnvelope} {self : PubSub} {source : NodeId}
    {payload : Bytes} {envelope : Envelope} (h : Admits prost self source payload envelope) :
    self.receive prost source payload =
      ({ self with received := (acceptSeq self.received source envelope.topic envelope.seq).2 },
        if (acceptSeq self.received source envelope.topic envelope.seq).1 then
          self.localDeliveries envelope
        else [.dropped (.duplicateOrTooOld source envelope.topic envelope.seq)]) := by
  obtain ⟨hdec, rfl, hpolicy⟩ := h
  have hsome : ¬ (self.policies.get envelope.topic.name).isNone = true := by
    rw [Option.isNone_iff_eq_none, ← Option.not_isSome_iff_eq_none]
    exact not_not.mpr hpolicy
  simp only [receive, hdec, ne_eq, not_true_eq_false, if_false, if_neg hsome]
  split <;> rfl

theorem receive_refused {prost : Bytes → Option WireEnvelope} {self : PubSub} {source : NodeId}
    {payload : Bytes} (h : ∀ envelope, ¬ Admits prost self source payload envelope) :
    ∃ reason, self.receive prost source payload = (self, [.rejected reason]) := by
  unfold receive
  split
  · exact ⟨_, rfl⟩
  · rename_i envelope hdec
    split
    · exact ⟨_, rfl⟩
    · rename_i horigin
      split
      · exact ⟨_, rfl⟩
      · rename_i hpolicy
        refine absurd ⟨hdec, not_not.mp horigin, ?_⟩ (h envelope)
        rw [Option.isNone_iff_eq_none, ← Option.not_isSome_iff_eq_none] at hpolicy
        exact not_not.mp hpolicy

/-- An inbound payload changes the windows only. -/
theorem receive_state (prost : Bytes → Option WireEnvelope) (node : PubSub) (source : NodeId)
    (payload : Bytes) : ∃ received,
      (node.receive prost source payload).1 = { node with received := received } := by
  by_cases hadmits : ∃ envelope, Admits prost node source payload envelope
  · obtain ⟨envelope, hadmits⟩ := hadmits
    rw [receive_admitted hadmits]
    exact ⟨_, rfl⟩
  · obtain ⟨reason, hreceive⟩ := receive_refused (not_exists.mp hadmits)
    rw [hreceive]
    exact ⟨node.received, rfl⟩

/-- An inbound payload makes the node deliver, drop or reject. -/
theorem receive_actions {prost : Bytes → Option WireEnvelope} {node : PubSub}
    {source : NodeId} {payload : Bytes} {action : PubSubAction}
    (h : action ∈ (node.receive prost source payload).2) :
    (∃ sub message, action = .deliverToApp sub message) ∨
      (∃ reason, action = .rejected reason) ∨ ∃ reason, action = .dropped reason := by
  by_cases hadmits : ∃ envelope, Admits prost node source payload envelope
  · obtain ⟨envelope, hadmits⟩ := hadmits
    rw [receive_admitted hadmits] at h
    simp only at h
    split at h
    · obtain ⟨_, _, heq⟩ := List.mem_map.mp h
      exact .inl ⟨_, _, heq.symm⟩
    · exact .inr (.inr ⟨_, List.mem_singleton.mp h⟩)
  · obtain ⟨reason, hreceive⟩ := receive_refused (not_exists.mp hadmits)
    rw [hreceive] at h
    exact .inr (.inl ⟨_, List.mem_singleton.mp h⟩)

/-- An inbound payload never makes the node send. -/
theorem receive_sends_nothing {prost : Bytes → Option WireEnvelope} {node : PubSub}
    {source : NodeId} {payload : Bytes} {action : PubSubAction}
    (h : action ∈ (node.receive prost source payload).2) :
    ∀ destinations priority flowId conflateKey conflatable encoded,
      action ≠ .sendMulticast destinations priority flowId conflateKey conflatable encoded := by
  rintro destinations priority flowId conflateKey conflatable encoded rfl
  rcases receive_actions h with ⟨_, _, heq⟩ | ⟨_, heq⟩ | ⟨_, heq⟩ <;> cases heq

/-- What a publication that is reported does. -/
structure Publishes (debug : Bool) (node : PubSub) (now : MonoTime) (topic : TopicKey)
    (payload : Bytes) (q : PubSub) (acts : List PubSubAction) : Prop where
  counted : (node.nextSequences[topic]?.getD 0).toNat < u64Max
  state : q = { node with
    nextSequences := node.nextSequences.insert topic (node.nextSequences[topic]?.getD 0 + 1)
    received := (acceptSeq node.received node.me topic (node.nextSequences[topic]?.getD 0 + 1)).2 }
  emitted : ∃ policy encoded sent,
    EnvelopeCodec.encode
      ⟨node.me, topic, node.nextSequences[topic]?.getD 0 + 1, .ofNat now, payload⟩ = .ok encoded ∧
    encoded.length ≤ maxLiveEnvelopeLen ∧ node.sends policy topic encoded = some sent ∧
    acts = sent ++ [.published topic (node.nextSequences[topic]?.getD 0 + 1)]

/-- A publication is reported, or rejected with no more than an empty counter left behind. -/
theorem publish_cases {debug : Bool} {self : PubSub} {now : MonoTime} {topic : TopicKey}
    {payload : Bytes} {q : PubSub} {acts : List PubSubAction}
    (h : self.publish debug now topic payload = some (q, acts)) :
    Publishes debug self now topic payload q acts ∨
      ∃ reason, acts = [.rejected reason] ∧ (q = self ∨ q = { self with
        nextSequences :=
          self.nextSequences.insert topic (self.nextSequences[topic]?.getD 0) }) := by
  unfold publish at h
  split at h
  · cases h
    exact .inr ⟨_, rfl, .inl rfl⟩
  · rename_i policy _
    simp only at h
    split at h
    · cases h
      exact .inr ⟨_, rfl, .inr rfl⟩
    · rename_i hcount
      split at h
      · cases h
      · rename_i encoded henc
        split at h
        · cases h
          exact .inr ⟨_, rfl, .inr rfl⟩
        · rename_i hlen
          split at h
          · cases h
          · simp only [bind, Option.bind_eq_some_iff] at h
            obtain ⟨sent, hsent, h⟩ := h
            cases h
            refine .inl ⟨?_, ?_, policy, encoded, sent, henc, Nat.not_lt.mp hlen, hsent, rfl⟩
            · have := (self.nextSequences[topic]?.getD 0).toNat_lt
              unfold u64Max at hcount ⊢
              omega
            · rw [OrdMap.insert_insert]

end PubSub
end MeshBus
