import MeshBus.PubSub.Republish

/-!
# PubSub.OwnWindow

The window a node keeps for its own numbers, and the assertion that a local publication always
advances it.

The window is also written by inbound envelopes that name the node as their origin, and any node can
send one. A number the node has not published yet closes the window for it: the assertion fails in a
debug build, and a release build publishes a number its own window refuses
(`forged_number_is_refused`). As long as no inbound envelope in the node's name is ahead of what the
node has published, the assertion holds and no build panics (`own_number_advances`).
-/

namespace MeshBus
namespace PubSub

/-- The event is an envelope in the name of the node, taken for a topic with a policy, whose number
the node has not reached. -/
def speaksAhead (prost : Bytes → Option WireEnvelope) (node : PubSub) : PubSubEvent → Bool
  | .inbound source payload =>
    match EnvelopeCodec.decode prost payload with
    | .error _ => false
    | .ok envelope =>
      source = node.me && envelope.origin = source &&
        (node.policies.get envelope.topic.name).isSome &&
        node.counter envelope.topic < envelope.seq.toNat
  | _ => false

/-- The own windows are not ahead of the counters. -/
def Behind (node : PubSub) : Prop :=
  ∀ topic window, node.received[toLex (node.me, topic)]? = some window →
    window.highest.toNat ≤ node.counter topic

/-- The highest number of a window is an old one or the number it was given. -/
theorem ReceiveWindow.accept_highest (self : ReceiveWindow) (seq : UInt64) :
    (self.accept seq).2.highest = seq ∨ (self.accept seq).2.highest = self.highest := by
  simp only [accept]
  split
  · exact .inl rfl
  · split
    · exact .inr rfl
    · split
      · exact .inr rfl
      · exact .inr rfl

theorem acceptSeq_highest {received : OrdMap (NodeId ×ₗ TopicKey) ReceiveWindow}
    {origin o : NodeId} {topic t : TopicKey} {seq : UInt64} {window : ReceiveWindow}
    (h : (acceptSeq received origin topic seq).2[toLex (o, t)]? = some window) :
    (origin = o ∧ topic = t ∧ window.highest = seq) ∨
      ∃ old, received[toLex (o, t)]? = some old ∧ window.highest = old.highest := by
  unfold acceptSeq at h
  split at h
  · rename_i old hold
    rw [OrdMap.get_insert] at h
    split at h
    · rename_i hkey
      cases toLex.injective hkey
      cases h
      rcases old.accept_highest seq with hhigh | hhigh
      · exact .inl ⟨rfl, rfl, hhigh⟩
      · exact .inr ⟨old, hold, hhigh⟩
    · exact .inr ⟨window, h, rfl⟩
  · rw [OrdMap.get_insert] at h
    split at h
    · rename_i hkey
      cases toLex.injective hkey
      cases h
      exact .inl ⟨rfl, rfl, rfl⟩
    · exact .inr ⟨window, h, rfl⟩

/-- A window that is not ahead takes the next number. -/
theorem Behind.advances {node : PubSub} (h : Behind node) {topic : TopicKey}
    (hlt : node.counter topic < u64Max) :
    (acceptSeq node.received node.me topic (node.nextSequences[topic]?.getD 0 + 1)).1 = true := by
  unfold acceptSeq
  split
  · rename_i window hwindow
    have hhigh : window.highest < node.nextSequences[topic]?.getD 0 + 1 := by
      rw [UInt64.lt_iff_toNat_lt, counter_succ hlt]
      exact Nat.lt_succ_of_le (h topic window hwindow)
    simp only [ReceiveWindow.accept, if_pos hhigh]
  · rfl

theorem Behind.publish {debug : Bool} {node q : PubSub} {now : MonoTime} {topic : TopicKey}
    {payload : Bytes} {out : List PubSubAction} (h : Behind node)
    (hpublish : node.publish debug now topic payload = some (q, out)) : Behind q := by
  rcases publish_cases hpublish with hpub | ⟨reason, -, hq⟩
  · intro t window hwindow
    rw [hpub.counter t]
    rw [hpub.state] at hwindow
    rcases acceptSeq_highest hwindow with ⟨-, rfl, hhigh⟩ | ⟨old, hold, hhigh⟩
    · rw [if_pos rfl, hhigh, counter_succ hpub.counted]
    · have hle := h t old hold
      rw [hhigh]
      split
      · rename_i heq
        subst heq
        omega
      · exact hle
  · have halike : Alike node q := .of_rejected hq
    intro t window hwindow
    rw [counter, ← halike.counters t]
    rw [halike.same] at hwindow
    exact h t window hwindow

theorem Behind.receive {prost : Bytes → Option WireEnvelope} {node : PubSub} (h : Behind node)
    {source : NodeId} {payload : Bytes}
    (hahead : node.speaksAhead prost (.inbound source payload) = false) :
    Behind (node.receive prost source payload).1 := by
  by_cases hadmits : ∃ envelope, Admits prost node source payload envelope
  · obtain ⟨envelope, hadmits⟩ := hadmits
    rw [receive_admitted hadmits]
    intro t window hwindow
    rcases acceptSeq_highest hwindow with ⟨hme, rfl, hhigh⟩ | ⟨old, hold, hhigh⟩
    · obtain ⟨hdecode, horigin, hpolicy⟩ := hadmits
      have hnot : ¬ node.counter envelope.topic < envelope.seq.toNat := by
        intro hlt
        have hme' : source = node.me := hme
        simp [speaksAhead, hdecode, horigin, hpolicy, hme', hlt] at hahead
      rw [hhigh]
      exact Nat.not_lt.mp hnot
    · rw [hhigh]
      exact h t old hold
  · obtain ⟨reason, hreceive⟩ := receive_refused (not_exists.mp hadmits)
    rw [hreceive]
    exact h

/-- A step that no one forges returns in both builds. -/
theorem Behind.handle {prost : Bytes → Option WireEnvelope} {debug : Bool} {node : PubSub}
    (h : Behind node) (now : MonoTime) {event : PubSubEvent}
    (hahead : node.speaksAhead prost event = false) :
    Ends (node.handle prost debug now event) fun r => Behind r.1 := by
  cases event with
  | localPublish topic payload =>
    have hreturns : ∃ r, node.publish debug now topic payload = some r := by
      obtain ⟨q, out, hrelease, hdebug⟩ := node.publish_total now topic payload
      cases debug with
      | false => exact ⟨_, hrelease⟩
      | true =>
        rcases hdebug with hsame | ⟨-, hlt, hrefused⟩
        · exact ⟨_, hsame⟩
        · rw [h.advances hlt] at hrefused
          cases hrefused
    obtain ⟨⟨q, out⟩, hpublish⟩ := hreturns
    exact ⟨_, hpublish, h.publish hpublish⟩
  | localSubscribe subId selector => exact ⟨_, rfl, h⟩
  | localUnsubscribe subId => exact ⟨_, rfl, h⟩
  | inbound source payload => exact ⟨_, rfl, h.receive hahead⟩
  | discoveryUpdated discovery => exact ⟨_, rfl, h⟩

/-- No inbound envelope in the node's name was ahead of the node: no build panics in the run, and at
its end the next number of every topic is accepted by the node's own window, so that both builds
publish alike. -/
theorem own_number_advances (prost : Bytes → Option WireEnvelope) (debug : Bool) (me : NodeId)
    (policies : TopicPolicies) (events : List (MonoTime × PubSubEvent))
    (h : Along (fun node e => node.handle prost debug e.1 e.2)
      (fun node e => node.speaksAhead prost e.2 = false) (new me policies) events) :
    ∃ node acts, handleAll prost debug (new me policies) events = some (node, acts) ∧
      (∀ topic, node.counter topic < u64Max →
        (acceptSeq node.received node.me topic (node.nextSequences[topic]?.getD 0 + 1)).1 = true) ∧
      ∀ now topic payload, node.handle prost true now (.localPublish topic payload) =
        node.handle prost false now (.localPublish topic payload) := by
  have hnew : Behind (new me policies) := by
    intro topic window hwindow
    simp [new] at hwindow
  obtain ⟨⟨node, acts⟩, hrun, hbehind⟩ := h.ends
    (fun node e hbehind hahead => hbehind.handle e.1 hahead) hnew
  refine ⟨node, acts, hrun, fun topic hlt => hbehind.advances hlt, fun now topic payload => ?_⟩
  obtain ⟨q, out, hrelease, hdebug⟩ := node.publish_total now topic payload
  rcases hdebug with hsame | ⟨-, hlt, hrefused⟩
  · exact hsame.trans hrelease.symm
  · rw [hbehind.advances hlt] at hrefused
    cases hrefused

/-- Number 1 of node 1, published at time 1. -/
def ownPayload : Bytes := envelopeMagic ++ (EnvelopeCodec.wire (sampleEnvelope 1 1)).encode

/-- The node hears its first publication back, before it makes the second. -/
theorem own_number_advances_echo : ∃ node acts,
    handleAll envelopeLayout.read true (new (.ofByte 1) samplePolicies)
      [(1, .localPublish sampleTopic [1]), (2, .inbound (.ofByte 1) ownPayload),
        (3, .localPublish sampleTopic [1])] = some (node, acts) ∧
    node.handle envelopeLayout.read true 4 (.localPublish sampleTopic [1]) =
      node.handle envelopeLayout.read false 4 (.localPublish sampleTopic [1]) := by
  obtain ⟨node, acts, hrun, -, hsame⟩ := own_number_advances envelopeLayout.read true
    (.ofByte 1) samplePolicies
    [(1, .localPublish sampleTopic [1]), (2, .inbound (.ofByte 1) ownPayload),
      (3, .localPublish sampleTopic [1])] (by decide +kernel)
  exact ⟨node, acts, hrun, hsame 4 sampleTopic [1]⟩

/-- Node 1 hears number 1 in its name before it has published anything. Its first publication is
number 1: the debug build panics, and the release build publishes a number that its own window
refuses. -/
theorem forged_number_is_refused : ∃ node q,
    handleAll envelopeLayout.read true (new (.ofByte 1) samplePolicies)
      [(0, .inbound (.ofByte 1) ownPayload)] = some (node, []) ∧
    (acceptSeq node.received node.me sampleTopic 1).1 = false ∧
    node.handle envelopeLayout.read false 1 (.localPublish sampleTopic [1]) =
      some (q, [.published sampleTopic 1]) ∧
    node.handle envelopeLayout.read true 1 (.localPublish sampleTopic [1]) = none := by
  have hfacts : (handleAll envelopeLayout.read true (new (.ofByte 1) samplePolicies)
      [(0, .inbound (.ofByte 1) ownPayload)]).map (fun r => decide (r.2 = [] ∧
        (acceptSeq r.1.received r.1.me sampleTopic 1).1 = false ∧
        (r.1.handle envelopeLayout.read false 1 (.localPublish sampleTopic [1])).map
          Prod.snd = some [.published sampleTopic 1] ∧
        ((r.1.handle envelopeLayout.read true 1
          (.localPublish sampleTopic [1])).map Prod.snd) = none)) = some true := by
    decide +kernel
  obtain ⟨⟨node, acts⟩, hrun, hfacts⟩ := Option.map_eq_some_iff.mp hfacts
  obtain ⟨rfl, hrefused, hrelease, hdebug⟩ := of_decide_eq_true hfacts
  obtain ⟨⟨q, out⟩, hq, rfl⟩ := Option.map_eq_some_iff.mp hrelease
  exact ⟨node, q, hrun, hrefused, hq, Option.map_eq_none_iff.mp hdebug⟩

end PubSub
end MeshBus
