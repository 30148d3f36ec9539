import MeshBus.Forward.Multicast
import MeshBus.PubSub.Dedup

/-!
# PubSub.Publish

A local publication is all or nothing (`publish_all_or_nothing`): it is rejected and leaves no
trace, or its multicasts name every discovered subscriber but the node itself once, in lists that
the forwarder accepts, and its number is the next one of the topic.

A rejection may leave an empty counter behind. `Alike` relates the states that differ in such
counters only; they emit the same in every run.
-/

namespace MeshBus
namespace PubSub

open Wire Forward

/-! ## Chunks -/

theorem flatten_chunksFor {α : Type*} {size : Nat} (hsize : 0 < size) : ∀ {fuel : Nat}
    {xs : List α}, xs.length ≤ fuel → (chunksFor size fuel xs).flatten = xs := by
  intro fuel
  induction fuel with
  | zero =>
    intro xs h
    rw [List.length_eq_zero_iff.mp (Nat.le_zero.mp h)]
    rfl
  | succ fuel ih =>
    intro xs h
    rw [chunksFor]
    split
    · rename_i hempty
      rw [List.isEmpty_iff.mp hempty]
      rfl
    · rename_i hne
      have hpos : 0 < xs.length := by
        rw [List.isEmpty_iff] at hne
        exact List.length_pos_iff.mpr hne
      have hdrop : (xs.drop size).length ≤ fuel := by
        rw [List.length_drop]
        omega
      rw [List.flatten_cons, ih hdrop, List.take_append_drop]

theorem mem_chunksFor {α : Type*} {size : Nat} (hsize : 0 < size) {l : List α} : ∀ {fuel : Nat}
    {xs : List α}, l ∈ chunksFor size fuel xs → 1 ≤ l.length ∧ l.length ≤ size := by
  intro fuel
  induction fuel with
  | zero =>
    intro xs h
    cases h
  | succ fuel ih =>
    intro xs h
    rw [chunksFor] at h
    split at h
    · cases h
    · rename_i hne
      rcases List.mem_cons.mp h with rfl | h
      · have hpos : 0 < xs.length := by
          rw [List.isEmpty_iff] at hne
          exact List.length_pos_iff.mpr hne
        rw [List.length_take]
        omega
      · exact ih h

/-! ## The multicasts of a publication -/

/-- The destination lists of the multicasts among the actions. -/
def destinationLists (acts : List PubSubAction) : List (List NodeId) :=
  acts.filterMap fun
    | .sendMulticast destinations _ _ _ _ _ => some destinations
    | _ => none

/-- The multicasts of `encoded` reach the subscribers of the topic other than the node. -/
structure Covers (node : PubSub) (topic : TopicKey) (encoded : Bytes)
    (sent : List PubSubAction) : Prop where
  multicasts : ∀ action ∈ sent, ∃ destinations priority flowId conflateKey conflatable,
    action = .sendMulticast destinations priority flowId conflateKey conflatable encoded
  once : (destinationLists sent).flatten.Nodup
  all : ∀ n, n ∈ (destinationLists sent).flatten ↔
    n ∈ node.discovery.subscribers topic ∧ n ≠ node.me
  accepted : ∀ ds ∈ destinationLists sent, ∃ m, MulticastPayload.new ds encoded = .ok m

/-- No subtraction of the chunk limit is cut off, and the limit is positive. -/
theorem chunkLimit_pos {encoded : Bytes} (h : encoded.length ≤ maxLiveEnvelopeLen) :
    encoded.length + multicastCountLen ≤ maxForwardPayloadLen ∧
      0 < min maxMulticastDestinations
        ((maxForwardPayloadLen - encoded.length - multicastCountLen) / nodeIdLen) := by
  unfold maxLiveEnvelopeLen maxForwardPayloadLen maxPayloadLen forwardHeaderLen multicastCountLen
    nodeIdLen at h
  unfold maxForwardPayloadLen maxPayloadLen forwardHeaderLen multicastCountLen nodeIdLen
    maxMulticastDestinations
  omega

/-- A chunk within the limit fits with the envelope. -/
theorem chunk_accepted {encoded : Bytes} {ds : List NodeId} (hpos : 1 ≤ ds.length)
    (hlimit : ds.length ≤ min maxMulticastDestinations
      ((maxForwardPayloadLen - encoded.length - multicastCountLen) / nodeIdLen))
    (hfits : encoded.length + multicastCountLen ≤ maxForwardPayloadLen) (hnodup : ds.Nodup) :
    ∃ m, MulticastPayload.new ds encoded = .ok m := by
  obtain ⟨hcount, hroom⟩ := Nat.le_min.mp hlimit
  refine MulticastPayload.new_iff.mpr ⟨⟨hpos, hcount⟩, hnodup, ?_⟩
  unfold multicastCountLen nodeIdLen at hroom
  unfold multicastCountLen at hfits
  omega

theorem destinationLists_map {encoded : Bytes} {priority : Priority} {flowId conflateKey : UInt64}
    {conflatable : Bool} (lists : List (List NodeId)) :
    destinationLists (lists.map fun ds =>
      .sendMulticast ds priority flowId conflateKey conflatable encoded) = lists := by
  rw [destinationLists, List.filterMap_map]
  exact List.filterMap_some

theorem sends_covers (node : PubSub) (policy : TopicPolicy) (topic : TopicKey) {encoded : Bytes}
    (h : encoded.length ≤ maxLiveEnvelopeLen) :
    ∃ sent, node.sends policy topic encoded = some sent ∧ Covers node topic encoded sent := by
  obtain ⟨hfits, hpos⟩ := chunkLimit_pos h
  have hflat := flatten_chunksFor hpos
    (le_refl ((node.discovery.subscribers topic).erase node.me).toList.length)
  have hnodup := OrdSet.nodup_toList ((node.discovery.subscribers topic).erase node.me)
  simp only [sends, chunks, if_neg (Nat.pos_iff_ne_zero.mp hpos), bind, Option.bind_some]
  refine ⟨_, rfl, ?_, ?_, ?_, ?_⟩
  · intro action haction
    obtain ⟨ds, -, rfl⟩ := List.mem_map.mp haction
    exact ⟨ds, _, _, _, _, rfl⟩
  · rw [destinationLists_map, hflat]
    exact hnodup
  · intro n
    rw [destinationLists_map, hflat, Std.ExtTreeSet.mem_toList, OrdSet.mem_erase]
    exact and_comm.trans (and_congr_right fun _ => ne_comm)
  · intro ds hds
    rw [destinationLists_map] at hds
    obtain ⟨hone, hlimit⟩ := mem_chunksFor hpos hds
    refine chunk_accepted hone hlimit hfits ?_
    rw [← hflat] at hnodup
    exact (List.nodup_flatten.mp hnodup).1 ds hds

/-! ## A publication is made or rejected -/

/-- The last number of a topic. -/
def counter (node : PubSub) (topic : TopicKey) : Nat := (node.nextSequences[topic]?.getD 0).toNat

theorem counter_insert (node : PubSub) (topic t : TopicKey) (seq : UInt64) :
    ({ node with nextSequences := node.nextSequences.insert topic seq } : PubSub).counter t =
      if topic = t then seq.toNat else node.counter t := by
  simp only [counter, OrdMap.get_insert]
  split <;> rfl

theorem counter_lt (node : PubSub) (topic : TopicKey) : node.counter topic < 2 ^ 64 :=
  UInt64.toNat_lt _

theorem counter_succ {node : PubSub} {topic : TopicKey} (h : node.counter topic < u64Max) :
    (node.nextSequences[topic]?.getD 0 + 1).toNat = node.counter topic + 1 := by
  unfold counter u64Max at h
  rw [UInt64.toNat_add, UInt64.toNat_one, counter]
  omega

theorem Publishes.counter {debug : Bool} {node q : PubSub} {now : MonoTime} {topic : TopicKey}
    {payload : Bytes} {acts : List PubSubAction}
    (h : Publishes debug node now topic payload q acts) (t : TopicKey) :
    q.counter t = if topic = t then node.counter topic + 1 else node.counter t := by
  rw [h.state, ← counter_succ h.counted]
  exact counter_insert node topic t _

/-- The release build never panics, and the debug build only at the assertion on the own window. -/
theorem publish_total (node : PubSub) (now : MonoTime) (topic : TopicKey) (payload : Bytes) :
    ∃ q out, node.publish false now topic payload = some (q, out) ∧
      (node.publish true now topic payload = some (q, out) ∨
        node.publish true now topic payload = none ∧ node.counter topic < u64Max ∧
        (acceptSeq node.received node.me topic (node.nextSequences[topic]?.getD 0 + 1)).1 =
          false) := by
  cases hpolicy : node.policies.get topic.name with
  | none =>
    simp only [publish, hpolicy]
    exact ⟨_, _, rfl, .inl rfl⟩
  | some policy =>
    by_cases hmax : (node.nextSequences[topic]?.getD 0).toNat = u64Max
    · simp only [publish, hpolicy, if_pos hmax]
      exact ⟨_, _, rfl, .inl rfl⟩
    · have hlt : node.counter topic < u64Max := by
        have := node.counter_lt topic
        unfold counter u64Max at *
        omega
      have hne : node.nextSequences[topic]?.getD 0 + 1 ≠ 0 := by
        intro hzero
        have hsucc := counter_succ hlt
        rw [hzero] at hsucc
        simp at hsucc
      have hencode := @EnvelopeCodec.encode_eq
        ⟨node.me, topic, node.nextSequences[topic]?.getD 0 + 1, .ofNat now, payload⟩ hne
      simp only [publish, hpolicy, if_neg hmax, hencode]
      split
      · exact ⟨_, _, rfl, .inl rfl⟩
      · rename_i hlen
        obtain ⟨sent, hsent, -⟩ := sends_covers node policy topic (Nat.not_lt.mp hlen)
        have hsends : ∀ counters received, sends { node with
            nextSequences := counters, received := received } policy topic _ = some sent :=
          fun _ _ => hsent
        simp only [hsends, bind, Option.bind_some, Bool.false_and, Bool.false_eq_true, if_false,
          Bool.true_and]
        cases hacc : (acceptSeq node.received node.me topic
            (node.nextSequences[topic]?.getD 0 + 1)).1 with
        | true => exact ⟨_, _, rfl, .inl rfl⟩
        | false => exact ⟨_, _, rfl, .inr ⟨rfl, hlt, rfl⟩⟩

/-! ## What a rejection leaves behind -/

/-- The counters play no part in `receive`. -/
theorem receive_counters (prost : Bytes → Option WireEnvelope) (node : PubSub)
    (counters : OrdMap TopicKey UInt64) (source : NodeId) (payload : Bytes) :
    receive prost { node with nextSequences := counters } source payload =
      ({ (node.receive prost source payload).1 with nextSequences := counters },
        (node.receive prost source payload).2) := by
  simp only [receive]
  split
  · rfl
  · split
    · rfl
    · split
      · rfl
      · split <;> rfl

/-- The states differ in empty counters only. -/
structure Alike (p q : PubSub) : Prop where
  same : q = { p with nextSequences := q.nextSequences }
  counters : ∀ topic : TopicKey, p.nextSequences[topic]?.getD 0 = q.nextSequences[topic]?.getD 0

namespace Alike

theorem symm {p q : PubSub} (h : Alike p q) : Alike q p := by
  refine ⟨?_, fun topic => (h.counters topic).symm⟩
  rw [h.same]

/-- An empty counter, or a counter written again. -/
theorem insert_same (p : PubSub) (topic : TopicKey) : Alike p { p with
    nextSequences := p.nextSequences.insert topic (p.nextSequences[topic]?.getD 0) } := by
  refine ⟨rfl, fun t => ?_⟩
  simp only [OrdMap.get_insert]
  split
  · rename_i heq
    rw [heq]
    rfl
  · rfl

/-- The two states a rejection can leave. -/
theorem of_rejected {p q : PubSub} {topic : TopicKey} (h : q = p ∨ q = { p with
    nextSequences := p.nextSequences.insert topic (p.nextSequences[topic]?.getD 0) }) :
    Alike p q := by
  rcases h with rfl | rfl
  · exact ⟨rfl, fun _ => rfl⟩
  · exact .insert_same p topic

/-- The same counter is written in both. -/
theorem insert_congr {counters counters' : OrdMap TopicKey UInt64}
    (h : ∀ t : TopicKey, counters[t]?.getD 0 = counters'[t]?.getD 0) (topic : TopicKey)
    (seq : UInt64) (t : TopicKey) :
    (counters.insert topic seq)[t]?.getD 0 = (counters'.insert topic seq)[t]?.getD 0 := by
  simp only [OrdMap.get_insert]
  split
  · rfl
  · exact h t

variable {prost : Bytes → Option WireEnvelope} {debug : Bool}

theorem publish {p q p' : PubSub} (h : Alike p q) {now : MonoTime} {topic : TopicKey}
    {payload : Bytes} {out : List PubSubAction}
    (hp : p.publish debug now topic payload = some (p', out)) :
    ∃ q', q.publish debug now topic payload = some (q', out) ∧ Alike p' q' := by
  obtain ⟨hsame, hcounters⟩ := h
  generalize q.nextSequences = counters at hsame hcounters
  subst hsame
  simp only [PubSub.publish, ← hcounters topic] at hp ⊢
  split at hp
  · cases hp
    exact ⟨_, rfl, rfl, hcounters⟩
  · have hinsert := insert_congr hcounters topic (p.nextSequences[topic]?.getD 0)
    split at hp
    · rename_i hmax
      rw [if_pos hmax]
      cases hp
      exact ⟨_, rfl, rfl, hinsert⟩
    · rename_i hmax
      rw [if_neg hmax]
      split at hp
      · cases hp
      · split at hp
        · rename_i hlen
          rw [if_pos hlen]
          cases hp
          exact ⟨_, rfl, rfl, hinsert⟩
        · rename_i hlen
          rw [if_neg hlen]
          split at hp
          · cases hp
          · rename_i hassert
            rw [if_neg hassert]
            simp only [bind, Option.bind_eq_some_iff] at hp ⊢
            obtain ⟨sent, hsent, heq⟩ := hp
            cases heq
            exact ⟨_, ⟨sent, hsent, rfl⟩, rfl, insert_congr hinsert topic _⟩

theorem handle {p q p' : PubSub} (h : Alike p q) {now : MonoTime} {event : PubSubEvent}
    {out : List PubSubAction} (hp : p.handle prost debug now event = some (p', out)) :
    ∃ q', q.handle prost debug now event = some (q', out) ∧ Alike p' q' := by
  cases event with
  | localPublish topic payload => exact h.publish hp
  | localSubscribe | localUnsubscribe | discoveryUpdated =>
    cases hp
    rw [h.same]
    exact ⟨_, rfl, rfl, h.counters⟩
  | inbound source payload =>
    have hreceive : p.receive prost source payload = (p', out) := Option.some.inj hp
    obtain ⟨received, hstate⟩ := receive_state prost p source payload
    rw [hreceive] at hstate
    cases hstate
    rw [h.same, PubSub.handle, receive_counters, hreceive]
    exact ⟨_, rfl, rfl, h.counters⟩

end Alike

/-- A run over a list of events. -/
def handleAll (prost : Bytes → Option WireEnvelope) (debug : Bool) (node : PubSub)
    (events : List (MonoTime × PubSubEvent)) : Option (PubSub × List PubSubAction) :=
  emitAll (fun node e => node.handle prost debug e.1 e.2) node events

/-- Nothing a node emits tells such states apart. -/
theorem Alike.emits {p q : PubSub} (h : Alike p q) (prost : Bytes → Option WireEnvelope)
    (debug : Bool) (events : List (MonoTime × PubSubEvent)) :
    (handleAll prost debug p events).map Prod.snd =
      (handleAll prost debug q events).map Prod.snd := by
  have hsim : ∀ {p q p' : PubSub} {out : List PubSubAction}, Alike p q →
      handleAll prost debug p events = some (p', out) →
      ∃ q', handleAll prost debug q events = some (q', out) ∧ Alike p' q' :=
    emitAll_sim fun _ _ _ _ _ h hstep => h.handle hstep
  cases hp : handleAll prost debug p events with
  | some r =>
    obtain ⟨q', hq, -⟩ := hsim h hp
    rw [hq]
    rfl
  | none =>
    cases hq : handleAll prost debug q events with
    | none => rfl
    | some r =>
      obtain ⟨p', hp', -⟩ := hsim h.symm hq
      rw [hp] at hp'
      cases hp'

/-! ## The numbers of a topic -/

/-- The numbers reported as published on a topic. -/
def numbersOn (topic : TopicKey) (acts : List PubSubAction) : List Nat :=
  acts.filterMap fun
    | .published t seq => if t = topic then some seq.toNat else none
    | _ => none

theorem numbersOn_append (topic : TopicKey) (a b : List PubSubAction) :
    numbersOn topic (a ++ b) = numbersOn topic a ++ numbersOn topic b := List.filterMap_append

theorem numbersOn_eq_nil {topic : TopicKey} {acts : List PubSubAction}
    (h : ∀ t seq, .published t seq ∉ acts) : numbersOn topic acts = [] := by
  refine List.filterMap_eq_nil_iff.mpr fun action haction => ?_
  cases action with
  | published t seq => exact absurd haction (h t seq)
  | sendMulticast | deliverToApp | localSubscriptionsChanged | rejected | dropped => rfl

/-- A step reports nothing and keeps the counter, or reports the next number. -/
def Counts (node : PubSub) (topic : TopicKey) (q : PubSub) (out : List PubSubAction) : Prop :=
  numbersOn topic out = [] ∧ q.counter topic = node.counter topic ∨
    numbersOn topic out = [node.counter topic + 1] ∧ q.counter topic = node.counter topic + 1

variable {prost : Bytes → Option WireEnvelope} {debug : Bool}

theorem publish_counts {node q : PubSub} {now : MonoTime} {t : TopicKey} {payload : Bytes}
    {out : List PubSubAction} (h : node.publish debug now t payload = some (q, out))
    (topic : TopicKey) : Counts node topic q out := by
  rcases publish_cases h with hpub | ⟨reason, rfl, hq⟩
  · obtain ⟨policy, encoded, sent, -, -, hsent, rfl⟩ := hpub.emitted
    have hnone : numbersOn topic sent = [] := by
      refine numbersOn_eq_nil fun t seq hmem => ?_
      obtain ⟨_, _, _, _, _, heq⟩ := mem_sends hsent hmem
      cases heq
    have hcounter := hpub.counter topic
    by_cases htopic : t = topic
    · subst htopic
      refine .inr ⟨?_, by rw [hcounter, if_pos rfl]⟩
      rw [numbersOn_append, hnone, ← counter_succ hpub.counted]
      simp [numbersOn]
    · refine .inl ⟨?_, by rw [hcounter, if_neg htopic]⟩
      rw [numbersOn_append, hnone]
      simp [numbersOn, htopic]
  · exact .inl ⟨rfl, congrArg UInt64.toNat ((Alike.of_rejected hq).counters topic).symm⟩

theorem handle_counts {node q : PubSub} {now : MonoTime} {event : PubSubEvent}
    {out : List PubSubAction} (h : node.handle prost debug now event = some (q, out))
    (topic : TopicKey) : Counts node topic q out := by
  cases event with
  | localPublish t payload => exact publish_counts h topic
  | localSubscribe | localUnsubscribe =>
    cases h
    refine .inl ⟨numbersOn_eq_nil fun t seq hmem => ?_, rfl⟩
    simp only [subscriptionChange] at hmem
    split at hmem <;> simp at hmem
  | inbound source payload =>
    have hreceive : node.receive prost source payload = (q, out) := Option.some.inj h
    refine .inl ⟨numbersOn_eq_nil fun t seq hmem => ?_, ?_⟩
    · have hmem' : .published t seq ∈ (node.receive prost source payload).2 := by
        rw [hreceive]
        exact hmem
      rcases receive_actions hmem' with ⟨_, _, heq⟩ | ⟨_, heq⟩ | ⟨_, heq⟩ <;> cases heq
    · obtain ⟨received, hstate⟩ := receive_state prost node source payload
      rw [hreceive] at hstate
      cases hstate
      rfl
  | discoveryUpdated discovery =>
    cases h
    exact .inl ⟨rfl, rfl⟩

/-- By induction on the events: the numbers of a run continue those before it, without a gap. -/
theorem handleAll_numbers (topic : TopicKey) : ∀ {events : List (MonoTime × PubSubEvent)}
    {node q : PubSub} {acts : List PubSubAction},
    handleAll prost debug node events = some (q, acts) →
    node.counter topic ≤ q.counter topic ∧
      numbersOn topic acts =
        List.range' (node.counter topic + 1) (q.counter topic - node.counter topic) := by
  intro events
  induction events with
  | nil =>
    intro node q acts h
    cases h
    simp [numbersOn]
  | cons e events ih =>
    intro node q acts h
    obtain ⟨q1, out, rest, hstep, hrest, rfl⟩ := emitAll_cons_inv h
    obtain ⟨hle, hnumbers⟩ := ih hrest
    rw [numbersOn_append, hnumbers]
    rcases handle_counts hstep topic with ⟨hout, hcounter⟩ | ⟨hout, hcounter⟩
    · rw [hout, hcounter]
      exact ⟨hcounter ▸ hle, rfl⟩
    · rw [hcounter] at hle
      have hlen : q.counter topic - node.counter topic =
          q.counter topic - (node.counter topic + 1) + 1 := by omega
      refine ⟨by omega, ?_⟩
      rw [hout, hcounter, hlen, List.range'_succ]
      rfl

/-! ## All or nothing -/

/-- From every state of every run, in the release build: a publication emits a rejection only, and
no later run can tell that it was tried; or it emits multicasts and one `Published`. The multicasts
name every discovered subscriber other than the node once, in lists that `MulticastPayload::new`
accepts with the envelope, so that no forwarder drops one of them as invalid; the chunk limit they
are cut with is computed without underflow and is positive. The numbers published on a topic are 1,
2, 3 and so on. The debug build does the same unless its assertion on the own window fails. -/
theorem publish_all_or_nothing (prost : Bytes → Option WireEnvelope) (debug : Bool) (me : NodeId)
    (policies : TopicPolicies) (events : List (MonoTime × PubSubEvent)) (node : PubSub)
    (acts : List PubSubAction)
    (hrun : handleAll prost debug (new me policies) events = some (node, acts)) :
    (∀ topic, numbersOn topic acts = List.range' 1 (node.counter topic)) ∧
    ∀ now topic payload, ∃ q out,
      node.handle prost false now (.localPublish topic payload) = some (q, out) ∧
      (node.handle prost true now (.localPublish topic payload) = some (q, out) ∨
        node.handle prost true now (.localPublish topic payload) = none ∧
        (acceptSeq node.received node.me topic (node.nextSequences[topic]?.getD 0 + 1)).1 =
          false) ∧
      ((∃ reason, out = [.rejected reason] ∧ Alike node q ∧ ∀ build later,
          (handleAll prost build node later).map Prod.snd =
            (handleAll prost build q later).map Prod.snd) ∨
        ∃ seq encoded sent, out = sent ++ [.published topic seq] ∧
          seq.toNat = node.counter topic + 1 ∧
          EnvelopeCodec.encode ⟨node.me, topic, seq, .ofNat now, payload⟩ = .ok encoded ∧
          Covers node topic encoded sent ∧
          (∀ ds ∈ destinationLists sent, ∀ f time packet f' forwarded, packet.payload = encoded →
            Forwarder.handle f time (.outboundMulticast ds packet) = some (f', forwarded) →
            ∀ a ∈ forwarded, ForwardAction.isInvalid a = false) ∧
          encoded.length + multicastCountLen ≤ maxForwardPayloadLen ∧
          0 < min maxMulticastDestinations
            ((maxForwardPayloadLen - encoded.length - multicastCountLen) / nodeIdLen)) := by
  refine ⟨fun topic => ?_, fun now topic payload => ?_⟩
  · have hnumbers := (handleAll_numbers topic hrun).2
    have hnew : (new me policies).counter topic = 0 := by simp [counter, new]
    rwa [hnew] at hnumbers
  · obtain ⟨q, out, hrelease, hdebug⟩ := node.publish_total now topic payload
    refine ⟨q, out, hrelease, hdebug.imp_right fun h => ⟨h.1, h.2.2⟩, ?_⟩
    rcases publish_cases hrelease with hpub | ⟨reason, rfl, hq⟩
    · obtain ⟨policy, encoded, sent, hencode, hlen, hsent, rfl⟩ := hpub.emitted
      obtain ⟨sent', hsent', hcovers⟩ := sends_covers node policy topic hlen
      rw [hsent] at hsent'
      cases hsent'
      refine .inr ⟨_, encoded, sent, rfl, counter_succ hpub.counted, hencode, hcovers, ?_,
        chunkLimit_pos hlen⟩
      rintro ds hds f time packet f' forwarded rfl hforward
      obtain ⟨m, hnew⟩ := hcovers.accepted ds hds
      exact Forwarder.outboundMulticast_valid hnew hforward
    · have halike : Alike node q := .of_rejected hq
      exact .inl ⟨reason, rfl, halike, halike.emits prost⟩

/-- Two publications, and one in between on a topic without a policy. -/
def sampleEvents : List (MonoTime × PubSubEvent) :=
  [(0, .discoveryUpdated
      (DiscoveryIndex.empty.setSubscribers (.exact sampleTopic) [.ofByte 1, .ofByte 2])),
    (1, .localPublish sampleTopic [1]), (2, .localPublish ⟨[117], [], rfl⟩ [1]),
    (3, .localPublish sampleTopic [1])]

/-- The next number is 3, and it goes to node 2 and not to the node itself. -/
theorem publish_all_or_nothing_third : ∃ node acts,
    handleAll envelopeLayout.read true (new (.ofByte 1) samplePolicies) sampleEvents =
      some (node, acts) ∧
    numbersOn sampleTopic acts = [1, 2] ∧
    ∃ q sent, node.handle envelopeLayout.read false 4 (.localPublish sampleTopic [2]) =
        some (q, sent ++ [.published sampleTopic 3]) ∧
      .ofByte 2 ∈ (destinationLists sent).flatten ∧
      .ofByte 1 ∉ (destinationLists sent).flatten := by
  have hfacts : (handleAll envelopeLayout.read true (new (.ofByte 1) samplePolicies)
      sampleEvents).map (fun r => decide (r.1.counter sampleTopic = 2 ∧ r.1.me = .ofByte 1 ∧
        (r.1.discovery.subscribers sampleTopic).contains (.ofByte 2) = true ∧
        ((r.1.handle envelopeLayout.read false 4 (.localPublish sampleTopic [2])).map fun s =>
          s.2.length) = some 2)) = some true := by
    decide +kernel
  obtain ⟨⟨node, acts⟩, hrun, hfacts⟩ := Option.map_eq_some_iff.mp hfacts
  obtain ⟨hcounter, hme, hsub, hlength⟩ := of_decide_eq_true hfacts
  obtain ⟨hnumbers, hpublish⟩ := publish_all_or_nothing _ _ _ _ _ node acts hrun
  refine ⟨node, acts, hrun, by rw [hnumbers, hcounter]; rfl, ?_⟩
  obtain ⟨q, out, hq, -, hout⟩ := hpublish 4 sampleTopic [2]
  rw [hq] at hlength
  rcases hout with ⟨reason, rfl, -⟩ | ⟨seq, encoded, sent, rfl, hseq, -, hcovers, -⟩
  · cases hlength
  · have hthree : seq = 3 := by
      rw [hcounter] at hseq
      exact UInt64.toNat_inj.mp hseq
    subst hthree
    refine ⟨q, sent, hq, (hcovers.all _).mpr ⟨?_, ?_⟩, fun hmem => ?_⟩
    · exact Std.ExtTreeSet.mem_iff_contains.mpr hsub
    · rw [hme]
      decide
    · exact ((hcovers.all _).mp hmem).2 hme.symm

end PubSub
end MeshBus
