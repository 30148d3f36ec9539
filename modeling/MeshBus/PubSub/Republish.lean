import MeshBus.PubSub.Publish

/-!
# PubSub.Republish

A publisher that restarts, and one subscriber that stays up. Each incarnation of the publisher is a
fresh `PubSub::new`: its sequence numbers start again at one, while the subscriber keeps the window
of the numbers it has accepted. What the publisher sends to the subscriber arrives once and in
order.

A publication of the new incarnation is dropped as a duplicate or as too old until its number has
passed those of the incarnations before (`restarted_publisher_is_not_heard`). Every publication is
delivered if, whenever the publisher publishes on a topic, its counter has caught up with what was
published there before (`published_is_delivered`).
-/

namespace MeshBus
namespace PubSub

/-! ## The system -/

/-- What is on its way is the encoded envelopes; `published` and `delivered` are histories. -/
structure Feed where
  publisher : PubSub
  channel : List Bytes
  subscriber : PubSub
  published : List Envelope
  delivered : List Envelope

inductive FeedStep where
  /-- An event at the publisher. -/
  | publisher (now : MonoTime) (event : PubSubEvent)
  /-- The publisher is down and comes back. -/
  | restart
  /-- Any other event at the subscriber. -/
  | subscriber (now : MonoTime) (event : PubSubEvent)
  /-- The next envelope arrives. -/
  | arrive (now : MonoTime)

/-- The payloads that go to a node. -/
def sentTo (node : NodeId) (acts : List PubSubAction) : List Bytes :=
  acts.filterMap fun
    | .sendMulticast destinations _ _ _ _ payload =>
      if node ∈ destinations then some payload else none
    | _ => none

/-- The envelopes reported as published. -/
def reported (me : NodeId) (now : MonoTime) (event : PubSubEvent) (acts : List PubSubAction) :
    List Envelope :=
  match event with
  | .localPublish _ payload => acts.filterMap fun
      | .published topic seq => some ⟨me, topic, seq, .ofNat now, payload⟩
      | _ => none
  | _ => []

/-- The envelope that is handed to the application, if one is. -/
def handedOver (acts : List PubSubAction) : Option Envelope :=
  acts.findSome? fun
    | .deliverToApp _ message => some message.envelope
    | _ => none

namespace Feed

def start (me subscriber : NodeId) (policies subscriberPolicies : TopicPolicies) : Feed :=
  ⟨new me policies, [], new subscriber subscriberPolicies, [], []⟩

def step (prost : Bytes → Option WireEnvelope) (debug : Bool) (s : Feed) :
    FeedStep → Option Feed
  | .publisher now event => do
    let (publisher, acts) ← s.publisher.handle prost debug now event
    some { s with
      publisher := publisher
      channel := s.channel ++ sentTo s.subscriber.me acts
      published := s.published ++ reported s.publisher.me now event acts }
  | .restart => some { s with publisher := new s.publisher.me s.publisher.policies }
  | .subscriber now event => do
    let (subscriber, _) ← s.subscriber.handle prost debug now event
    some { s with subscriber := subscriber }
  | .arrive now =>
    match s.channel with
    | [] => some s
    | payload :: rest => do
      let (subscriber, acts) ←
        s.subscriber.handle prost debug now (.inbound s.publisher.me payload)
      some { s with
        subscriber := subscriber
        channel := rest
        delivered := s.delivered ++ (handedOver acts).toList }

/-- The subscriber has a policy for the topic and a matching subscription. -/
def listens (node : PubSub) (topic : TopicKey) : Bool :=
  (node.policies.get topic.name).isSome &&
    node.localSubscriptions.toList.any fun e => e.2.matchesTopic topic

/-- The setting: the publisher has discovered the subscriber when it publishes, the subscriber
listens when an envelope arrives, and no one else speaks for the publisher. -/
def attended (prost : Bytes → Option WireEnvelope) (s : Feed) : FeedStep → Bool
  | .publisher _ (.localPublish topic _) =>
    (s.publisher.discovery.subscribers topic).contains s.subscriber.me
  | .subscriber _ (.inbound source _) => source ≠ s.publisher.me
  | .arrive _ =>
    match s.channel with
    | [] => true
    | payload :: _ =>
      match EnvelopeCodec.decode prost payload with
      | .error _ => true
      | .ok envelope => listens s.subscriber envelope.topic
  | _ => true

/-- The counter of the topic is not behind what was published on it. -/
def caughtUp (s : Feed) : FeedStep → Bool
  | .publisher _ (.localPublish topic _) =>
    s.published.all fun e => e.topic ≠ topic || e.seq ≤ s.publisher.nextSequences[topic]?.getD 0
  | _ => true

end Feed

/-! ## What one subscriber is sent -/

/-- An element of lists without repetition is in one of them. -/
theorem filter_mem_of_nodup_flatten {α : Type*} [DecidableEq α] {x : α} :
    ∀ {lists : List (List α)}, lists.flatten.Nodup → x ∈ lists.flatten →
      ∃ l, lists.filter (fun l => x ∈ l) = [l] := by
  intro lists
  induction lists with
  | nil =>
    intro _ h
    simp at h
  | cons l lists ih =>
    intro hnodup hmem
    rw [List.flatten_cons, List.nodup_append] at hnodup
    obtain ⟨-, hrest, hdisj⟩ := hnodup
    by_cases hx : x ∈ l
    · refine ⟨l, ?_⟩
      have hnone : lists.filter (fun l => x ∈ l) = [] := by
        refine List.filter_eq_nil_iff.mpr fun l' hl' => ?_
        simp only [decide_eq_true_eq]
        intro hx'
        exact hdisj x hx x (List.mem_flatten.mpr ⟨l', hl', hx'⟩) rfl
      rw [List.filter_cons, if_pos (decide_eq_true hx), hnone]
    · rw [List.flatten_cons, List.mem_append] at hmem
      obtain ⟨l', hl'⟩ := ih hrest (hmem.resolve_left hx)
      refine ⟨l', ?_⟩
      rw [List.filter_cons, if_neg (by simpa using hx), hl']

theorem sentTo_map (node : NodeId) (encoded : Bytes) (action : List NodeId → PubSubAction)
    (haction : ∀ chunk, ∃ priority flowId conflateKey conflatable, action chunk =
      .sendMulticast chunk priority flowId conflateKey conflatable encoded)
    (chunked : List (List NodeId)) :
    sentTo node (chunked.map action) =
      (chunked.filter fun chunk => node ∈ chunk).map fun _ => encoded := by
  induction chunked with
  | nil => rfl
  | cons chunk chunked ih =>
    obtain ⟨priority, flowId, conflateKey, conflatable, hchunk⟩ := haction chunk
    simp only [sentTo] at ih
    by_cases hmem : node ∈ chunk
    · simp [sentTo, hchunk, hmem, ih]
    · simp [sentTo, hchunk, hmem, ih]

theorem sentTo_append (node : NodeId) (a b : List PubSubAction) :
    sentTo node (a ++ b) = sentTo node a ++ sentTo node b := List.filterMap_append

/-- A discovered subscriber is sent the envelope once. -/
theorem sentTo_sends {self : PubSub} {policy : TopicPolicy} {topic : TopicKey} {encoded : Bytes}
    {sent : List PubSubAction} {node : NodeId}
    (hsent : self.sends policy topic encoded = some sent)
    (hdisc : node ∈ self.discovery.subscribers topic) (hne : self.me ≠ node) :
    sentTo node sent = [encoded] := by
  simp only [sends, bind, Option.bind_eq_some_iff] at hsent
  obtain ⟨chunked, hchunks, heq⟩ := hsent
  cases heq
  have hmem : node ∈ ((self.discovery.subscribers topic).erase self.me).toList := by
    rw [Std.ExtTreeSet.mem_toList, OrdSet.mem_erase]
    exact ⟨hne, hdisc⟩
  have hnodup := OrdSet.nodup_toList ((self.discovery.subscribers topic).erase self.me)
  unfold chunks at hchunks
  split at hchunks
  · cases hchunks
  · rename_i hsize
    have hflat := flatten_chunksFor (Nat.pos_of_ne_zero hsize)
      (le_refl ((self.discovery.subscribers topic).erase self.me).toList.length)
    cases hchunks
    rw [← hflat] at hmem hnodup
    obtain ⟨chunk, hchunk⟩ := filter_mem_of_nodup_flatten hnodup hmem
    rw [sentTo_map node encoded _ fun chunk => ⟨_, _, _, _, rfl⟩, hchunk]
    rfl

/-! ## The step of the publisher -/

/-- What a publication adds, in the setting. -/
theorem publish_adds {debug : Bool} {self q : PubSub} {now : MonoTime} {topic : TopicKey}
    {payload : Bytes} {acts : List PubSubAction} {node : NodeId}
    (h : self.publish debug now topic payload = some (q, acts))
    (hdisc : node ∈ self.discovery.subscribers topic) (hne : self.me ≠ node) :
    sentTo node acts = [] ∧ reported self.me now (.localPublish topic payload) acts = [] ∨
      ∃ envelope encoded, EnvelopeCodec.encode envelope = .ok encoded ∧
        envelope.origin = self.me ∧ envelope.topic = topic ∧
        envelope.seq.toNat = (self.nextSequences[topic]?.getD 0).toNat + 1 ∧
        sentTo node acts = [encoded] ∧
        reported self.me now (.localPublish topic payload) acts = [envelope] := by
  rcases publish_cases h with hpub | ⟨reason, rfl, -⟩
  · obtain ⟨policy, encoded, sent, henc, -, hsent, rfl⟩ := hpub.emitted
    refine .inr ⟨_, encoded, henc, rfl, rfl, ?_, ?_, ?_⟩
    · have hlt := hpub.counted
      unfold u64Max at hlt
      rw [UInt64.toNat_add, UInt64.toNat_one]
      omega
    · rw [sentTo_append, sentTo_sends hsent hdisc hne]
      rfl
    · have hnone : sent.filterMap (fun
          | PubSubAction.published topic seq =>
            some (⟨self.me, topic, seq, .ofNat now, payload⟩ : Envelope)
          | _ => none) = [] := by
        refine List.filterMap_eq_nil_iff.mpr fun action hmem => ?_
        obtain ⟨_, _, _, _, _, rfl⟩ := mem_sends hsent hmem
        rfl
      simp only [reported, List.filterMap_append, hnone]
      rfl
  · exact .inl ⟨rfl, rfl⟩

/-- Any other event sends nothing and reports nothing. -/
theorem handle_adds_nothing {prost : Bytes → Option WireEnvelope} {debug : Bool} {self q : PubSub}
    {now : MonoTime} {event : PubSubEvent} {acts : List PubSubAction} (node : NodeId)
    (h : self.handle prost debug now event = some (q, acts))
    (hevent : ∀ topic payload, event ≠ .localPublish topic payload) :
    sentTo node acts = [] ∧ reported self.me now event acts = [] := by
  cases event with
  | localPublish topic payload => exact absurd rfl (hevent topic payload)
  | localSubscribe subId selector =>
    cases h
    simp only [subscriptionChange]
    split <;> exact ⟨rfl, rfl⟩
  | localUnsubscribe subId =>
    cases h
    simp only [subscriptionChange]
    split <;> exact ⟨rfl, rfl⟩
  | inbound source payload =>
    have hreceive : self.receive prost source payload = (q, acts) := Option.some.inj h
    refine ⟨List.filterMap_eq_nil_iff.mpr fun action hmem => ?_, rfl⟩
    have hmem' : action ∈ (self.receive prost source payload).2 := by
      rw [hreceive]
      exact hmem
    split
    · exact absurd rfl (receive_sends_nothing hmem' _ _ _ _ _ _)
    · rfl
  | discoveryUpdated discovery =>
    cases h
    exact ⟨rfl, rfl⟩

theorem handle_me {prost : Bytes → Option WireEnvelope} {debug : Bool} {self q : PubSub}
    {now : MonoTime} {event : PubSubEvent} {acts : List PubSubAction}
    (h : self.handle prost debug now event = some (q, acts)) : q.me = self.me := by
  cases event with
  | localPublish topic payload =>
    rcases publish_cases h with hpub | ⟨reason, -, rfl | rfl⟩
    · rw [hpub.state]
    · rfl
    · rfl
  | localSubscribe | localUnsubscribe | discoveryUpdated =>
    cases h
    rfl
  | inbound source payload =>
    have hreceive : self.receive prost source payload = (q, acts) := Option.some.inj h
    by_cases hadmits : ∃ envelope, Admits prost self source payload envelope
    · obtain ⟨envelope, hadmits⟩ := hadmits
      rw [receive_admitted hadmits] at hreceive
      cases hreceive
      rfl
    · obtain ⟨reason, hrefused⟩ := receive_refused (not_exists.mp hadmits)
      rw [hrefused] at hreceive
      cases hreceive
      rfl

/-- The numbers of an origin change only with its envelopes. -/
theorem Seen.step_other {prost : Bytes → Option WireEnvelope} {node : PubSub} {seen : Seen}
    {event : PubSubEvent} {acts : List PubSubAction} {origin : NodeId} (topic : TopicKey)
    (hme : origin ≠ node.me) (hsource : ∀ payload, event ≠ .inbound origin payload) :
    seen.step prost node event acts origin topic = seen origin topic := by
  have hadd : ∀ (seen : Seen) other t seq, origin ≠ other →
      seen.add other t seq origin topic = seen origin topic := by
    intro seen other t seq hne
    exact if_neg fun h => hne h.1
  have hpublished : ∀ (acts : List PubSubAction) (seen : Seen),
      acts.foldl (Seen.addPublished node.me) seen origin topic = seen origin topic := by
    intro acts
    induction acts with
    | nil => exact fun _ => rfl
    | cons action acts ih =>
      intro seen
      rw [List.foldl_cons, ih]
      cases action with
      | published t seq => exact hadd seen node.me t seq hme
      | _ => rfl
  cases event with
  | inbound source payload =>
    have hne : origin ≠ source := by
      rintro rfl
      exact hsource payload rfl
    simp only [Seen.step, Seen.addInbound]
    cases EnvelopeCodec.decode prost payload with
    | error e => rfl
    | ok envelope =>
      simp only
      split
      · exact hadd seen source _ _ hne
      · rfl
  | localPublish | localSubscribe | localUnsubscribe | discoveryUpdated =>
    exact hpublished acts seen

/-! ## Runs -/

/-- Later numbers of a topic are greater. -/
def Ascending (envelopes : List Envelope) : Prop :=
  envelopes.Pairwise fun a b => a.topic = b.topic → a.seq.toNat < b.seq.toNat

/-- What holds along a run in which every publication has caught up. `seen` is the set the
subscriber's windows stand for. -/
structure Flows (prost : Bytes → Option WireEnvelope) (me : NodeId) (s : Feed) : Prop where
  publisher : s.publisher.me = me
  apart : me ≠ s.subscriber.me
  ascending : Ascending s.published
  inFlight : ∃ rest, s.published = s.delivered ++ rest ∧
    List.Forall₂ (fun e bytes => EnvelopeCodec.encode e = .ok bytes ∧ e.origin = me) rest s.channel
  tracked : ∃ seen, Tracks s.subscriber.received seen ∧
    ∀ topic n, n ∈ seen me topic → ∃ e ∈ s.delivered, e.topic = topic ∧ e.seq.toNat = n

variable {prost : Bytes → Option WireEnvelope} {debug : Bool} {me : NodeId} {s s' : Feed}

theorem handedOver_localDeliveries {node : PubSub} {e : Envelope}
    (h : (node.localSubscriptions.toList.any fun sub => sub.2.matchesTopic e.topic) = true) :
    handedOver (node.localDeliveries e) = some e := by
  unfold localDeliveries
  cases hsubs : node.localSubscriptions.toList.filter fun sub => sub.2.matchesTopic e.topic with
  | nil =>
    rw [List.filter_eq_nil_iff] at hsubs
    obtain ⟨sub, hmem, hmatch⟩ := List.any_eq_true.mp h
    exact absurd hmatch (hsubs sub hmem)
  | cons sub subs => rfl

theorem Flows.publish (h : Flows prost me s) {now : MonoTime} {event : PubSubEvent}
    (hattended : s.attended prost (.publisher now event) = true)
    (hcaught : s.caughtUp (.publisher now event) = true)
    (hstep : s.step prost debug (.publisher now event) = some s') : Flows prost me s' := by
  simp only [Feed.step, bind, Option.bind_eq_some_iff] at hstep
  obtain ⟨⟨q, acts⟩, hhandle, heq⟩ := hstep
  cases heq
  have hme : q.me = me := (handle_me hhandle).trans h.publisher
  obtain ⟨rest, hpub, hchannel⟩ := h.inFlight
  -- a step that adds nothing
  have hidle : sentTo s.subscriber.me acts = [] ∧
      reported s.publisher.me now event acts = [] → Flows prost me { s with
        publisher := q
        channel := s.channel ++ sentTo s.subscriber.me acts
        published := s.published ++ reported s.publisher.me now event acts } := by
    rintro ⟨hsent, hreported⟩
    rw [hsent, hreported, List.append_nil, List.append_nil]
    exact ⟨hme, h.apart, h.ascending, ⟨rest, hpub, hchannel⟩, h.tracked⟩
  cases event with
  | localPublish topic payload =>
    have hdisc : s.subscriber.me ∈ s.publisher.discovery.subscribers topic :=
      Std.ExtTreeSet.mem_iff_contains.mpr hattended
    have hne : s.publisher.me ≠ s.subscriber.me := by
      rw [h.publisher]
      exact h.apart
    rcases publish_adds hhandle hdisc hne with hnone | ⟨e, encoded, henc, horigin, htopic, hseq,
      hsent, hreported⟩
    · exact hidle hnone
    · rw [hsent, hreported]
      refine ⟨hme, h.apart, ?_, ⟨rest ++ [e], ?_, ?_⟩, h.tracked⟩
      · refine List.pairwise_append.mpr ⟨h.ascending, List.pairwise_singleton _ _, ?_⟩
        intro a ha b hb hsame
        rw [List.mem_singleton.mp hb] at hsame ⊢
        have hle := List.all_eq_true.mp hcaught a ha
        simp only [Bool.or_eq_true, decide_eq_true_eq] at hle
        have := UInt64.le_iff_toNat_le.mp (hle.resolve_left fun hne => hne (hsame.trans htopic))
        omega
      · rw [hpub, List.append_assoc]
      · refine List.rel_append hchannel (.cons ⟨henc, ?_⟩ .nil)
        rw [horigin]
        exact h.publisher
  | localSubscribe | localUnsubscribe | inbound | discoveryUpdated =>
    refine hidle (handle_adds_nothing _ hhandle ?_)
    intro topic payload heq
    cases heq

theorem Flows.listen (h : Flows prost me s) {now : MonoTime} {event : PubSubEvent}
    (hattended : s.attended prost (.subscriber now event) = true)
    (hstep : s.step prost debug (.subscriber now event) = some s') : Flows prost me s' := by
  simp only [Feed.step, bind, Option.bind_eq_some_iff] at hstep
  obtain ⟨⟨q, acts⟩, hhandle, heq⟩ := hstep
  cases heq
  obtain ⟨seen, htracks, hseen⟩ := h.tracked
  have hwatch : watch prost debug (s.subscriber, seen) (now, event) =
      some ((q, seen.step prost s.subscriber event acts), acts) := by
    simp only [watch, hhandle, Option.map_some]
  refine ⟨h.publisher, ?_, h.ascending, h.inFlight,
    ⟨_, htracks.watched (watch_spec htracks hwatch), ?_⟩⟩
  · rw [handle_me hhandle]
    exact h.apart
  · intro topic n hn
    rw [Seen.step_other topic h.apart] at hn
    · exact hseen topic n hn
    · rintro payload rfl
      simp only [Feed.attended, h.publisher, ne_eq, not_true_eq_false, decide_false,
        Bool.false_eq_true] at hattended

/-- The next envelope has a number above all those accepted, so it is delivered. -/
theorem Flows.arrive (h : Flows prost me s) (hreads : ∀ e ∈ s.published, Reads prost e)
    {now : MonoTime} (hattended : s.attended prost (.arrive now) = true)
    (hstep : s.step prost debug (.arrive now) = some s') : Flows prost me s' := by
  obtain ⟨rest, hpub, hchannel⟩ := h.inFlight
  obtain ⟨seen, htracks, hseen⟩ := h.tracked
  cases hch : s.channel with
  | nil =>
    simp only [Feed.step, hch] at hstep
    cases hstep
    exact h
  | cons payload tail =>
    rw [hch] at hchannel
    cases hchannel with
    | @cons e _ rest' _ hhead htail =>
      obtain ⟨henc, horigin⟩ := hhead
      have hmem : e ∈ s.published := by
        rw [hpub]
        simp
      have hdec : EnvelopeCodec.decode prost payload = .ok e :=
        EnvelopeCodec.decode_encode (hreads e hmem) henc
      simp only [Feed.attended, hch, hdec, Feed.listens, Bool.and_eq_true] at hattended
      obtain ⟨hpolicy, hmatch⟩ := hattended
      have hadmits : Admits prost s.subscriber me payload e := ⟨hdec, horigin, hpolicy⟩
      have hfresh : Fresh 64 (seen me e.topic) e.seq.toNat := by
        have hbelow : ∀ n ∈ seen me e.topic, n < e.seq.toNat := by
          intro n hn
          obtain ⟨d, hd, htopic, rfl⟩ := hseen e.topic n hn
          have hasc := h.ascending
          rw [hpub] at hasc
          exact (List.pairwise_append.mp hasc).2.2 d hd e List.mem_cons_self htopic
        by_cases hempty : seen me e.topic = ∅
        · exact .inl hempty
        · refine .inr ⟨fun hin => absurd (hbelow _ hin) (lt_irrefl _), ?_⟩
          have hsup : (seen me e.topic).sup id ≤ e.seq.toNat :=
            Finset.sup_le fun n hn => (hbelow n hn).le
          omega
      obtain ⟨hacc, htracks'⟩ := htracks.acceptSeq me e.topic e.seq
      simp only [Feed.step, hch, PubSub.handle, bind, h.publisher, receive_admitted hadmits,
        hacc.mpr hfresh, if_true, Option.bind_some, Option.some.injEq] at hstep
      subst hstep
      have hover := handedOver_localDeliveries hmatch
      refine ⟨h.publisher, h.apart, h.ascending, ⟨rest', ?_, htail⟩, ⟨_, htracks', ?_⟩⟩
      · rw [hpub, hover]
        simp
      · intro topic n hn
        simp only [hover, Option.toList_some, List.mem_append, List.mem_singleton]
        unfold Seen.add at hn
        split at hn
        · rename_i hkey
          rcases Finset.mem_insert.mp hn with rfl | hn
          · exact ⟨e, .inr rfl, hkey.2.symm, rfl⟩
          · obtain ⟨d, hd, hrest⟩ := hseen topic n hn
            exact ⟨d, .inl hd, hrest⟩
        · obtain ⟨d, hd, hrest⟩ := hseen topic n hn
          exact ⟨d, .inl hd, hrest⟩

theorem reads_of_step (hstep : ∃ x, s.step prost debug x = some s')
    (hreads : ∀ e ∈ s'.published, Reads prost e) : ∀ e ∈ s.published, Reads prost e := by
  obtain ⟨x, hstep⟩ := hstep
  intro e he
  apply hreads
  cases x with
  | publisher now event =>
    simp only [Feed.step, bind, Option.bind_eq_some_iff] at hstep
    obtain ⟨_, -, heq⟩ := hstep
    cases heq
    exact List.mem_append_left _ he
  | restart =>
    cases hstep
    exact he
  | subscriber now event =>
    simp only [Feed.step, bind, Option.bind_eq_some_iff] at hstep
    obtain ⟨_, -, heq⟩ := hstep
    cases heq
    exact he
  | arrive now =>
    simp only [Feed.step] at hstep
    split at hstep
    · cases hstep
      exact he
    · simp only [bind, Option.bind_eq_some_iff] at hstep
      obtain ⟨_, -, heq⟩ := hstep
      cases heq
      exact he

theorem Flows.step (h : Flows prost me s) (hreads : ∀ e ∈ s.published, Reads prost e) {x : FeedStep}
    (hattended : s.attended prost x = true) (hcaught : s.caughtUp x = true)
    (hstep : s.step prost debug x = some s') : Flows prost me s' := by
  cases x with
  | publisher now event => exact h.publish hattended hcaught hstep
  | restart =>
    cases hstep
    exact ⟨h.publisher, h.apart, h.ascending, h.inFlight, h.tracked⟩
  | subscriber now event => exact h.listen hattended hstep
  | arrive now => exact h.arrive hreads hattended hstep

theorem flows_start {subscriber : NodeId} (hne : me ≠ subscriber)
    (policies subscriberPolicies : TopicPolicies) :
    Flows prost me (.start me subscriber policies subscriberPolicies) where
  publisher := rfl
  apart := hne
  ascending := .nil
  inFlight := ⟨[], rfl, .nil⟩
  tracked := ⟨fun _ _ => ∅, tracks_new _ _, by simp⟩

/-- If the publisher's counter has caught up whenever it publishes, everything it reports as
published is delivered, in order, except for what is still on its way. -/
theorem published_is_delivered (prost : Bytes → Option WireEnvelope) (debug : Bool)
    (me subscriber : NodeId) (hne : me ≠ subscriber) (policies subscriberPolicies : TopicPolicies)
    (steps : List FeedStep) (s : Feed)
    (hrun : steps.foldlM (Feed.step prost debug)
      (.start me subscriber policies subscriberPolicies) = some s)
    (hreads : ∀ e ∈ s.published, Reads prost e)
    (hattended : AlongM (Feed.step prost debug) (fun s x => s.attended prost x = true)
      (.start me subscriber policies subscriberPolicies) steps)
    (hcaught : AlongM (Feed.step prost debug) (fun s x => s.caughtUp x = true)
      (.start me subscriber policies subscriberPolicies) steps) :
    ∃ rest, s.published = s.delivered ++ rest ∧ rest.length = s.channel.length := by
  have hall : (∀ e ∈ s.published, Reads prost e) → Flows prost me s := by
    refine AlongM.inv (P := fun s x => s.attended prost x = true ∧ s.caughtUp x = true)
      (Q := fun s => (∀ e ∈ s.published, Reads prost e) → Flows prost me s) ?_
      (hattended.and hcaught) (fun _ => flows_start hne policies subscriberPolicies) hrun
    intro s x s' hflows hcond hstep hreads
    have hreads' := reads_of_step ⟨x, hstep⟩ hreads
    exact (hflows hreads').step hreads' hcond.1 hcond.2 hstep
  obtain ⟨rest, hpub, hchannel⟩ := (hall hreads).inFlight
  exact ⟨rest, hpub, hchannel.length_eq⟩

/-! ## Sample runs -/

/-- Number `seq` of node 1 on the sample topic, published at time `ts`. -/
def sampleEnvelope (seq ts : UInt64) : Envelope := ⟨.ofByte 1, sampleTopic, seq, ts, [1]⟩

/-- The publisher discovers node 2. -/
def sampleDiscovery : FeedStep :=
  .publisher 0 (.discoveryUpdated
    (DiscoveryIndex.empty.setSubscribers (.exact sampleTopic) [.ofByte 2]))

def sampleStart : Feed := .start (.ofByte 1) (.ofByte 2) samplePolicies samplePolicies

def otherTopic : TopicKey := ⟨[116], [2], rfl⟩

def otherEnvelope : Envelope := ⟨.ofByte 1, otherTopic, 1, 6, [1]⟩

/-- A restart after two publications, the second of them still on its way, and one more on a topic
that is new. -/
def sampleSteps : List FeedStep :=
  [.subscriber 0 (.localSubscribe 7 (.exact sampleTopic)),
    .subscriber 0 (.localSubscribe 8 (.exact otherTopic)), sampleDiscovery,
    .publisher 1 (.localPublish sampleTopic [1]), .arrive 2,
    .publisher 3 (.localPublish sampleTopic [1]), .restart, .arrive 4,
    .publisher 5 (.discoveryUpdated
      (DiscoveryIndex.empty.setSubscribers (.exact otherTopic) [.ofByte 2])),
    .publisher 6 (.localPublish otherTopic [1]), .arrive 7]

theorem published_is_delivered_restart :
    ∃ s, sampleSteps.foldlM (Feed.step envelopeLayout.read true) sampleStart = some s ∧
      s.published = [sampleEnvelope 1 1, sampleEnvelope 2 3, otherEnvelope] ∧
      ∃ rest, s.published = s.delivered ++ rest ∧ rest.length = s.channel.length := by
  have hfacts : (sampleSteps.foldlM (Feed.step envelopeLayout.read true) sampleStart).map
      Feed.published = some [sampleEnvelope 1 1, sampleEnvelope 2 3, otherEnvelope] := by
    decide +kernel
  obtain ⟨s, hrun, hpub⟩ := Option.map_eq_some_iff.mp hfacts
  refine ⟨s, hrun, hpub, published_is_delivered _ _ _ _ (by decide +kernel) _ _ _ s hrun ?_
    (by decide +kernel) (by decide +kernel)⟩
  rw [hpub]
  have hshort : ∀ e ∈ [sampleEnvelope 1 1, sampleEnvelope 2 3, otherEnvelope],
      e.payload.length < 2 ^ 64 := by
    decide +kernel
  exact fun e he => reads_envelopeLayout (hshort e he)

/-- A restart between two publications. -/
def restartSteps : List FeedStep :=
  [.subscriber 0 (.localSubscribe 7 (.exact sampleTopic)), sampleDiscovery,
    .publisher 1 (.localPublish sampleTopic [1]), .arrive 2, .restart, sampleDiscovery,
    .publisher 3 (.localPublish sampleTopic [1]), .arrive 4]

/-- After a restart the first publication has the number of one already delivered: it arrives at a
subscriber that listens, and is dropped. -/
theorem restarted_publisher_is_not_heard :
    ∃ s, restartSteps.foldlM (Feed.step envelopeLayout.read true) sampleStart = some s ∧
      AlongM (Feed.step envelopeLayout.read true)
        (fun s x => s.attended envelopeLayout.read x = true) sampleStart restartSteps ∧
      (∀ e ∈ s.published, Reads envelopeLayout.read e) ∧
      s.published = [sampleEnvelope 1 1, sampleEnvelope 1 3] ∧ s.channel = [] ∧
      s.delivered = [sampleEnvelope 1 1] := by
  have hfacts : (restartSteps.foldlM (Feed.step envelopeLayout.read true) sampleStart).map
      (fun s => decide (s.published = [sampleEnvelope 1 1, sampleEnvelope 1 3] ∧ s.channel = [] ∧
        s.delivered = [sampleEnvelope 1 1])) = some true := by
    decide +kernel
  obtain ⟨s, hrun, hs⟩ := Option.map_eq_some_iff.mp hfacts
  have hs := of_decide_eq_true hs
  refine ⟨s, hrun, by decide +kernel, ?_, hs⟩
  rw [hs.1]
  have hshort : ∀ e ∈ [sampleEnvelope 1 1, sampleEnvelope 1 3], e.payload.length < 2 ^ 64 := by
    decide +kernel
  exact fun e he => reads_envelopeLayout (hshort e he)

end PubSub
end MeshBus
