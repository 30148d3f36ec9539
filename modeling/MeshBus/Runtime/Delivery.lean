import MeshBus.Runtime.Bus
import MeshBus.Runtime.Sendable

/-!
# Runtime.Delivery

From publisher to subscriber, over the whole bus. Every envelope that a node holds or that is in
flight is one its origin published (`Authentic`), so every message that a subscriber is handed was
published, as it is, by the node it names (`delivered_was_published`). The windows of a node hold
what it has handed out since it was started (`Once`), so no subscriber is handed a message twice in
one life of its node (`delivered_once`).
-/

namespace MeshBus
namespace Runtime

open Control Forward Wire PubSub Forwarder

variable {outside : Outside} {input : RuntimeInput} {effects : List Effect}
  {published : List Envelope} {packet : ForwardPacket}

/-! ## Where envelopes come from -/

/-- An envelope in a packet was published, by the node that the packet comes from. -/
def Genuine (published : List Envelope) (packet : ForwardPacket) : Prop :=
  EnvelopeCodec.isEnvelope packet.payload = true → ∃ e ∈ published,
    e.origin = packet.header.source ∧ EnvelopeCodec.encode e = .ok packet.payload

theorem Genuine.mono (more : List Envelope) (h : Genuine published packet) :
    Genuine (published ++ more) packet := by
  intro henvelope
  obtain ⟨e, he, hsame⟩ := h henvelope
  exact ⟨e, List.mem_append_left _ he, hsame⟩

theorem Genuine.of_not_envelope (h : EnvelopeCodec.isEnvelope packet.payload = false) :
    Genuine published packet := by
  intro henvelope
  rw [h] at henvelope
  cases henvelope

/-- A genuine payload is decoded to what was published. -/
theorem Genuine.decode {readEnvelope : Bytes → Option WireEnvelope} {envelope : Envelope}
    (h : Genuine published packet) (hreads : ∀ e ∈ published, Reads readEnvelope e)
    (henvelope : EnvelopeCodec.isEnvelope packet.payload = true)
    (hdecode : EnvelopeCodec.decode readEnvelope packet.payload = .ok envelope) :
    envelope ∈ published := by
  obtain ⟨e, he, -, hencode⟩ := h henvelope
  rw [EnvelopeCodec.decode_encode (hreads e he) hencode] at hdecode
  cases hdecode
  exact he

/-- Packets of clients are no envelopes: only the Pub/Sub core makes them. -/
def RuntimeInput.Plain : RuntimeInput → Prop
  | .forward (.outbound packet) => EnvelopeCodec.isEnvelope packet.payload = false
  | .forward (.outboundMulticast _ packet) => EnvelopeCodec.isEnvelope packet.payload = false
  | _ => True

/-- A frame that is read as a packet is read as a genuine one. -/
def GenuineFrame (published : List Envelope) (frame : WireFrame) : Prop :=
  ∀ packet, decodeForwardFrame frame = .ok packet → Bears (Genuine published) packet

/-- The packets that an input brings are genuine. -/
theorem forwardEvents_genuine {build : Build} (hplain : input.Plain)
    (hframe : ∀ link frame, input = .link (.frame link frame) → GenuineFrame published frame) :
    ∀ e ∈ forwardEvents build outside input, ∀ incoming packet,
      processed e = some (incoming, packet) → Bears (Genuine published) packet := by
  intro e he incoming packet hp
  rw [forwardEvents] at he
  cases input with
  | timer timer =>
    cases timer with
    | control timer => cases he
    | forward timer =>
      cases List.mem_singleton.mp he
      cases hp
  | forward input =>
    cases input with
    | outbound raw =>
      cases List.mem_singleton.mp he
      cases hp
      exact .of_ident (.of_not_envelope hplain)
    | outboundMulticast destinations raw =>
      cases List.mem_singleton.mp he
      refine .of_ident (.of_not_envelope ?_)
      change EnvelopeCodec.isEnvelope packet.payload = false
      rw [(processed_outboundMulticast hp).1]
      exact hplain
  | pubSub event => cases he
  | link event =>
    cases event with
    | up link peer =>
      simp only [meaning] at he
      cases hcost : outside.peerCosts[peer]? with
      | none => simp [hcost] at he
      | some cost =>
        simp only [hcost, Option.map_some, Option.getD_some, List.mem_cons, List.not_mem_nil,
          or_false] at he
        rcases he with rfl | rfl <;> cases hp
    | down link =>
      cases List.mem_singleton.mp he
      cases hp
    | frame link frame =>
      simp only [meaning] at he
      split at he
      · split at he
        · cases he
        · rename_i raw hdecode
          cases List.mem_singleton.mp he
          cases hp
          exact hframe link frame rfl packet hdecode
      · split at he
        · cases he
        · cases he
    | sent link frameType channel payloadBytes =>
      simp only [meaning] at he
      split at he
      · simp only [Option.map_some, Option.getD_some, List.mem_cons, List.not_mem_nil,
          or_false] at he
        rcases he with rfl | rfl <;> cases hp
      · cases he

theorem multicastPacket_source {source : NodeId} {priority : Priority} {flowId conflateKey : UInt64}
    {conflatable : Bool} {payload : Bytes}
    (h : multicastPacket source priority flowId conflateKey conflatable payload = some packet) :
    packet.payload = payload ∧ packet.header.source = source := by
  cases conflatable <;> cases h <;> exact ⟨rfl, rfl⟩

theorem mem_publications {me : NodeId} {now : MonoTime} {topic topic' : TopicKey} {payload : Bytes}
    {seq : UInt64} (h : .published topic seq ∈ outcomes effects) :
    ⟨me, topic, seq, .ofNat now, payload⟩ ∈
      publications me now (.pubSub (.localPublish topic' payload)) effects :=
  List.mem_filterMap.mpr ⟨_, h, rfl⟩

theorem mem_deliveries {sub : SubId} {message : DeliveredMessage}
    (h : (sub, message) ∈ deliveries effects) : .delivered sub message ∈ outcomes effects := by
  obtain ⟨outcome, houtcome, heq⟩ := List.mem_filterMap.mp h
  cases outcome with
  | delivered sub' message' =>
    cases heq
    exact houtcome
  | published | rejected | dropped => cases heq

theorem genuineFrame_of_control {frame : WireFrame} (h : frame.frameType ≠ .forward) :
    GenuineFrame published frame := by
  intro packet hdecode
  simp only [decodeForwardFrame, if_pos h] at hdecode
  cases hdecode

/-- Frames of genuine packets are genuine. -/
theorem forwardFrames_genuine {actions : List ForwardAction}
    (h : ∀ a ∈ actions, a.Bears (Genuine published)) :
    ∀ x ∈ forwardFrames actions, GenuineFrame published x.2 := by
  intro x hx packet hdecode
  obtain ⟨action, haction, hframe⟩ := List.mem_filterMap.mp hx
  cases action with
  | send link sent =>
    simp only [forwardFrame] at hframe
    split at hframe
    · cases hframe
    · rename_i payload hencode
      cases hframe
      have hread := decodeForwardFrame_frameFor (ForwardPacketCodec.decode_encode hencode)
      have hsame := Except.ok.inj (hread.symm.trans hdecode)
      rw [← hsame]
      exact (h _ haction).of_perm (List.perm_insertionSort _ _)
  | deliverLocal | drop | backpressure | setTimer => cases hframe

/-- Where the events of the Pub/Sub core come from. -/
theorem mem_pubSubEvents {discoveries : List DiscoveryIndex} {actions : List ForwardAction}
    {e : PubSubEvent} (h : e ∈ input.pubSubEvent?.toList ++
      (discoveries.map PubSubEvent.discoveryUpdated ++ actions.filterMap inboundOf)) :
    input = .pubSub e ∨ (∃ discovery, e = .discoveryUpdated discovery) ∨
      ∃ packet, .deliverLocal packet ∈ actions ∧
        EnvelopeCodec.isEnvelope packet.payload = true ∧
        e = .inbound packet.header.source packet.payload := by
  simp only [List.mem_append] at h
  rcases h with h | h | h
  · cases input with
    | pubSub event =>
      cases List.mem_singleton.mp h
      exact .inl rfl
    | link | forward | timer => cases h
  · obtain ⟨discovery, -, rfl⟩ := List.mem_map.mp h
    exact .inr (.inl ⟨discovery, rfl⟩)
  · exact .inr (.inr (mem_inbounds h))

section Turn

variable {build : Build} {rt rt' : RuntimeState} {planeActions : List ControlAction}
  {forwardActions : List ForwardAction} {pubsubActions : List PubSubAction}

/-- The multicasts of an iteration carry what its client is told is published. -/
theorem turned_multicasts
    (h : Turned build outside rt input rt' effects planeActions forwardActions pubsubActions)
    (hme : rt.forwarder.me = rt.pubsub.me) (published : List Envelope) :
    ∀ e ∈ pubsubActions.filterMap (multicastOf rt.forwarder.me), ∀ incoming packet,
      processed e = some (incoming, packet) → Bears
        (Genuine (published ++ publications rt.pubsub.me outside.now input effects)) packet := by
  intro e he incoming packet hp
  obtain ⟨action, haction, hmulticast⟩ := List.mem_filterMap.mp he
  cases action with
  | sendMulticast destinations priority flowId conflateKey conflatable encoded =>
    obtain ⟨raw, hraw, rfl⟩ := Option.map_eq_some_iff.mp hmulticast
    obtain ⟨hpayload, hsource⟩ := processed_outboundMulticast hp
    obtain ⟨hencoded, hme'⟩ := multicastPacket_source hraw
    obtain ⟨discoveries, -, hpubsub⟩ := h.pubsub
    obtain ⟨topic, payload, seq, hevent, hreported, hencode⟩ := pubSubSteps_sends hpubsub haction
    obtain rfl : input = .pubSub (.localPublish topic payload) := by
      rcases mem_pubSubEvents hevent with h | ⟨_, heq⟩ | ⟨_, -, -, heq⟩
      · exact h
      · cases heq
      · cases heq
    have houtcome : .published topic seq ∈ outcomes effects := by
      rw [h.outcomes]
      exact List.mem_filterMap.mpr ⟨_, hreported, rfl⟩
    have hident : (ident packet).payload = encoded := hpayload.trans hencoded
    refine .of_ident fun _ => ⟨_, List.mem_append_right _ (mem_publications houtcome), ?_, ?_⟩
    · exact (hsource.trans (hme'.trans hme)).symm
    · rw [hident]
      exact hencode
  | deliverToApp | localSubscriptionsChanged | published | rejected | dropped => cases hmulticast

/-- What holds of a node whose packets are genuine after an iteration. -/
structure Faithful (me : NodeId) (published : List Envelope) (rt : RuntimeState) : Prop where
  pubsub : rt.pubsub.me = me
  forwarder : rt.forwarder.me = me
  traced : rt.forwarder.Traced (Genuine published)

theorem turned_genuine {me : NodeId}
    (h : Turned build outside rt input rt' effects planeActions forwardActions pubsubActions)
    (hreads : ∀ e ∈ published ++ publications me outside.now input effects,
      Reads build.readEnvelope e) (hrt : Faithful me published rt) (hplain : input.Plain)
    (hframe : ∀ link frame, input = .link (.frame link frame) → GenuineFrame published frame)
    (hclient : ∀ source payload, input ≠ .pubSub (.inbound source payload)) :
    Faithful me (published ++ publications me outside.now input effects) rt' ∧
      (∀ x ∈ frames effects,
        GenuineFrame (published ++ publications me outside.now input effects) x.2) ∧
      ∀ x ∈ deliveries effects,
        x.2.envelope ∈ published ++ publications me outside.now input effects := by
  obtain ⟨hpubsub, hforwarder, htraced⟩ := hrt
  generalize hall : published ++ publications me outside.now input effects = all at hreads ⊢
  have hmono : ∀ k, Genuine published k → Genuine all k := fun k hk => hall ▸ hk.mono _
  -- the forwarder
  have hmulticasts := turned_multicasts h (hforwarder.trans hpubsub.symm) published
  rw [hpubsub, hall] at hmulticasts
  have hfirst : ∀ e ∈ forwardEvents build outside input, ∀ incoming packet,
      processed e = some (incoming, packet) → Bears (Genuine all) packet :=
    forwardEvents_genuine hplain fun link frame hinput packet hdecode t ht =>
      hmono _ (hframe link frame hinput packet hdecode t ht)
  obtain ⟨htraced', hactions⟩ := (htraced.mono hmono).handleAll (fun e he => by
    simp only [List.mem_append] at he
    rcases he with he | he | he
    · exact hfirst e he
    · intro incoming packet hp
      rw [routeEvents_eq] at he
      obtain ⟨table, -, rfl⟩ := List.mem_map.mp he
      cases hp
    · exact hmulticasts e he) h.forwarder
  refine ⟨⟨?_, ?_, htraced'⟩, ?_, ?_⟩
  · obtain ⟨discoveries, -, hsteps⟩ := h.pubsub
    rw [pubSubSteps_me hsteps, hpubsub]
  · rw [handleAll_me h.forwarder, hforwarder]
  · obtain ⟨controlFrames, hcontrol, hframes⟩ := h.frames
    intro x hx
    rw [hframes] at hx
    rcases List.mem_append.mp hx with hx | hx
    · exact genuineFrame_of_control (hcontrol x hx)
    · exact forwardFrames_genuine hactions x hx
  · obtain ⟨discoveries, -, hsteps⟩ := h.pubsub
    rintro ⟨sub, message⟩ hx
    have hmem := mem_deliveries hx
    rw [h.outcomes] at hmem
    obtain ⟨action, haction, heq⟩ := List.mem_filterMap.mp hmem
    cases action with
    | deliverToApp sub' message' =>
      cases heq
      refine pubSubSteps_delivers hsteps ?_ sub message haction
      rintro e he source payload envelope rfl hdecode
      rcases mem_pubSubEvents he with hinput | ⟨_, heq⟩ | ⟨packet, hpacket, henvelope, heq⟩
      · exact absurd hinput (hclient source payload)
      · cases heq
      · cases heq
        have hgenuine : Genuine all (ident packet) := hactions _ hpacket
        exact hgenuine.decode hreads henvelope hdecode
    | sendMulticast | localSubscriptionsChanged | published | rejected | dropped => cases heq

end Turn

theorem faithful_spawn (me : NodeId) (published : List Envelope) (epoch : UInt32)
    (persistedSeq : UInt64) (policies : TopicPolicies) :
    Faithful me published (.spawn me epoch persistedSeq policies) where
  pubsub := rfl
  forwarder := rfl
  traced := traced_new _ _ _

theorem GenuineFrame.mono (more : List Envelope) {frame : WireFrame}
    (h : GenuineFrame published frame) : GenuineFrame (published ++ more) frame :=
  fun packet hdecode t ht => (h packet hdecode t ht).mono more

theorem Faithful.mono {me : NodeId} (more : List Envelope) {rt : RuntimeState}
    (h : Faithful me published rt) : Faithful me (published ++ more) rt :=
  ⟨h.pubsub, h.forwarder, h.traced.mono fun _ hk => hk.mono more⟩

theorem publications_origin {me : NodeId} {now : MonoTime} :
    ∀ e ∈ publications me now input effects, e.origin = me := by
  intro e he
  unfold publications at he
  split at he
  · obtain ⟨outcome, -, heq⟩ := List.mem_filterMap.mp he
    split at heq
    · cases heq
      rfl
    · cases heq
  · cases he

/-- What an iteration leaves, whether it is the last or not. -/
theorem iterate_genuine {build : Build} {rt rt' : RuntimeState} {continues : Bool} {me : NodeId}
    (hreads : ∀ e ∈ published ++ publications me outside.now input effects,
      Reads build.readEnvelope e) (hrt : Faithful me published rt) (hplain : input.Plain)
    (hframe : ∀ link frame, input = .link (.frame link frame) → GenuineFrame published frame)
    (hclient : ∀ source payload, input ≠ .pubSub (.inbound source payload))
    (h : rt.iterate build outside input = some (rt', effects, continues)) :
    (continues = true → Faithful me (published ++ publications me outside.now input effects) rt') ∧
      (∀ x ∈ frames effects,
        GenuineFrame (published ++ publications me outside.now input effects) x.2) ∧
      ∀ x ∈ deliveries effects,
        x.2.envelope ∈ published ++ publications me outside.now input effects := by
  cases continues with
  | true =>
    obtain ⟨planeActions, forwardActions, pubsubActions, hturned⟩ := iterate_turned h
    obtain ⟨hrt', hframes, hdeliveries⟩ :=
      turned_genuine hturned hreads hrt hplain hframe hclient
    exact ⟨fun _ => hrt', hframes, hdeliveries⟩
  | false =>
    obtain ⟨hcontrol, hnone⟩ := iterate_stopped h
    refine ⟨by simp, fun x hx => genuineFrame_of_control (hcontrol x hx), ?_⟩
    rw [deliveries, hnone]
    simp

namespace Bus

variable {ι : Type} {build : Build} {me : ι → NodeId} {wire : ι × LinkId → Option (ι × LinkId)}

theorem mem_launched {i : ι} {sent : List (LinkId × WireFrame)} {x : ι × LinkId × WireFrame}
    (h : x ∈ launched wire i sent) : ∃ link, (link, x.2.2) ∈ sent := by
  obtain ⟨⟨link, frame⟩, hmem, heq⟩ := List.mem_filterMap.mp h
  obtain ⟨far, -, rfl⟩ := Option.map_eq_some_iff.mp heq
  exact ⟨link, hmem⟩

/-! ## Authenticity -/

/-- All envelopes are genuine, wherever they are. -/
structure Authentic (me : ι → NodeId) (bus : Bus ι) : Prop where
  nodes : ∀ i rt, bus.node i = some rt → Faithful (me i) bus.published rt
  flying : ∀ x ∈ bus.flight, GenuineFrame bus.published x.2.2
  authors : ∀ e ∈ bus.published, ∃ i, e.origin = me i
  delivered : ∀ d ∈ bus.delivered, d.message.envelope ∈ bus.published

theorem authentic_init : Authentic me (init : Bus ι) where
  nodes _ _ h := by cases h
  flying _ h := by cases h
  authors _ h := by cases h
  delivered _ h := by cases h

theorem Authentic.moved {bus : Bus ι} (hs : Authentic me bus)
    {flight : List (ι × LinkId × WireFrame)} (h : ∀ x ∈ flight, x ∈ bus.flight) :
    Authentic me { bus with flight := flight } :=
  ⟨hs.nodes, fun x hx => hs.flying x (h x hx), hs.authors, hs.delivered⟩

variable [DecidableEq ι]

/-- A node that has changed, and the others. -/
theorem update_node {P : ι → RuntimeState → Prop} {node : ι → Option RuntimeState} {i : ι}
    {new : Option RuntimeState} (hnew : ∀ rt, new = some rt → P i rt)
    (hothers : ∀ j rt, node j = some rt → P j rt) :
    ∀ j rt, Function.update node i new j = some rt → P j rt :=
  (Function.forall_update_iff node fun j o => ∀ rt, o = some rt → P j rt).mpr
    ⟨hnew, fun j _ => hothers j⟩

theorem Authentic.taken {bus : Bus ι} {i : ι} {rt : RuntimeState}
    {r : RuntimeState × List Effect × Bool} (hs : Authentic me bus) (hi : bus.node i = some rt)
    (hplain : input.Plain)
    (hframe : ∀ link frame, input = .link (.frame link frame) → GenuineFrame bus.published frame)
    (hclient : ∀ source payload, input ≠ .pubSub (.inbound source payload))
    (h : rt.iterate build outside input = some r)
    (hreads : ∀ e ∈ (bus.taken me wire i outside input r).published, Reads build.readEnvelope e) :
    Authentic me (bus.taken me wire i outside input r) := by
  obtain ⟨rt', effects, continues⟩ := r
  obtain ⟨hrt', hframes, hdeliveries⟩ :=
    iterate_genuine hreads (hs.nodes i rt hi) hplain hframe hclient h
  refine ⟨update_node ?_ fun j rt hj => (hs.nodes j rt hj).mono _, ?_, ?_, ?_⟩
  · intro rt1 hrt1
    cases continues with
    | false => cases hrt1
    | true =>
      cases hrt1
      exact hrt' rfl
  · intro x hx
    rcases List.mem_append.mp hx with hx | hx
    · exact (hs.flying x hx).mono _
    · obtain ⟨link, hmem⟩ := mem_launched hx
      exact hframes (link, x.2.2) hmem
  · intro e he
    rcases List.mem_append.mp he with he | he
    · exact hs.authors e he
    · exact ⟨i, publications_origin e he⟩
  · intro d hd
    rcases List.mem_append.mp hd with hd | hd
    · exact List.mem_append_left _ (hs.delivered d hd)
    · obtain ⟨x, hx, rfl⟩ := List.mem_map.mp hd
      exact hdeliveries x hx

/-- Authentic if the reader reads back what was published, so far. -/
def AuthenticIf (build : Build) (me : ι → NodeId) (bus : Bus ι) : Prop :=
  (∀ e ∈ bus.published, Reads build.readEnvelope e) → Authentic me bus

theorem AuthenticIf.step {bus bus' : Bus ι} {s : BusStep ι} (hif : AuthenticIf build me bus)
    (hplain : ∀ i outside input, s = .input i outside input → input.Plain)
    (h : bus.step build me wire s = some bus') : AuthenticIf build me bus' := by
  refine step_inv ?_ (fun _ hflight hreads => (hif hreads).moved hflight) ?_ ?_ h
  · intro i epoch persistedSeq policies hreads
    have hs := hif hreads
    refine ⟨update_node ?_ hs.nodes, hs.flying, hs.authors, hs.delivered⟩
    rintro rt hrt
    cases hrt
    exact faithful_spawn _ _ _ _ _
  · intro flight i hflight hreads
    have hs := hif hreads
    exact ⟨update_node (by simp) hs.nodes, (hs.moved hflight).flying, hs.authors, hs.delivered⟩
  · intro flight i rt outside input r hflight hi hbrings hiter hreads
    have hs := hif fun e he => hreads e (List.mem_append_left _ he)
    rcases hbrings with ⟨hinput, hlocal⟩ | ⟨link, x, hx, rfl⟩
    · refine (hs.moved hflight).taken hi (hplain i outside input hinput) ?_ ?_ hiter hreads
      · rintro link frame rfl
        cases hlocal
      · rintro source payload rfl
        cases hlocal
    · refine (hs.moved hflight).taken hi trivial ?_ (by simp) hiter hreads
      rintro link' frame heq
      cases heq
      exact hs.flying x hx

theorem AuthenticIf.run {steps : List (BusStep ι)} {bus bus' : Bus ι}
    (hs : AuthenticIf build me bus)
    (hplain : ∀ i outside input, .input i outside input ∈ steps → input.Plain)
    (h : bus.run build me wire steps = some bus') : AuthenticIf build me bus' := by
  have hsteps : AlongM (Bus.step build me wire)
      (fun _ s => ∀ i outside input, s = .input i outside input → input.Plain) bus steps :=
    alongM_of_forall fun s hmem i outside input heq => hplain i outside input (heq ▸ hmem)
  exact hsteps.inv (fun _ _ _ hs hplain hstep => hs.step hplain hstep) hs h

/-- Every message that any subscriber is ever handed was published by a client of the node it names
as its origin: with that topic, number, time and payload, over any number of hops, whatever the
links lose, copy or reorder and whichever nodes crash and start again. The protobuf library reads
back what was published. Clients must not send packets that look like envelopes; nothing stops
them. -/
theorem delivered_was_published {steps : List (BusStep ι)} {bus : Bus ι}
    (hplain : ∀ i outside input, .input i outside input ∈ steps → input.Plain)
    (h : (init : Bus ι).run build me wire steps = some bus)
    (hreads : ∀ e ∈ bus.published, Reads build.readEnvelope e) :
    ∀ d ∈ bus.delivered, d.message.envelope ∈ bus.published ∧
      ∃ i, d.message.envelope.origin = me i := by
  have hs := AuthenticIf.run (fun _ => authentic_init) hplain h hreads
  intro d hd
  exact ⟨hs.delivered d hd, hs.authors _ (hs.delivered d hd)⟩

/-- What a client of the first node publishes, the subscriber at the third is handed. -/
theorem delivered_was_published_line :
    ∃ bus, (init : Bus LineNode).run lineBuild lineMe lineWire (lineStart ++ linePublish) =
        some bus ∧ bus.delivered = [lineDelivery] ∧
      lineDelivery.message.envelope ∈ bus.published := by
  obtain ⟨bus, hrun, heq⟩ := Option.map_eq_some_iff.mp line_delivers
  rw [Prod.mk.injEq] at heq
  have hreads : ∀ e ∈ bus.published, Reads lineBuild.readEnvelope e := by
    rw [heq.2]
    intro e he
    rw [List.mem_singleton.mp he]
    exact reads_envelopeLayout (by decide)
  have hplain : ∀ i outside input, .input i outside input ∈ lineStart ++ linePublish →
      input.Plain := by
    intro i outside input hmem
    simp only [lineStart, linePublish, List.cons_append, List.nil_append, List.mem_cons,
      BusStep.input.injEq, reduceCtorEq, false_or, List.not_mem_nil, or_false] at hmem
    rcases hmem with h | h | h | h | h | h | h | h <;> obtain ⟨-, -, rfl⟩ := h <;> trivial
  have hall := delivered_was_published hplain hrun hreads
  rw [heq.1] at hall
  exact ⟨bus, hrun, heq.1, (hall _ (List.mem_singleton_self _)).1⟩

end Bus

/-! ## At most once -/

/-- What tells the deliveries to one subscriber apart. -/
def Delivery.key {ι : Type} (d : Delivery ι) : ι × Nat × SubId × NodeId × TopicKey × UInt64 :=
  (d.node, d.life, d.sub, d.message.envelope.origin, d.message.envelope.topic,
    d.message.envelope.seq)

/-- What tells apart what one iteration hands out. -/
def messageKey (x : SubId × DeliveredMessage) : SubId × NodeId × TopicKey × UInt64 :=
  (x.1, x.2.envelope.origin, x.2.envelope.topic, x.2.envelope.seq)

/-- The keys of what an iteration hands out are those of the actions. -/
theorem deliveries_keys {actions : List PubSubAction}
    (h : outcomes effects = actions.filterMap outcomeOf) :
    (deliveries effects).map messageKey = actions.filterMap deliveryKey := by
  rw [deliveries, h, List.filterMap_filterMap, List.map_filterMap]
  refine List.filterMap_congr fun action _ => ?_
  cases action <;> rfl

/-- Along any events, no key is handed out that was seen before, and none twice. -/
theorem pubSubSteps_once {build : Build} {now : MonoTime} {events : List PubSubEvent} :
    ∀ {p q : PubSub} {acts : List PubSubAction} {seen : Seen}, Tracks p.received seen →
    emitAll (pubSubStep build now) p events = some (q, acts) →
    ∃ seen', Tracks q.received seen' ∧ (∀ o t, seen o t ⊆ seen' o t) ∧
      (acts.filterMap deliveryKey).Nodup ∧ ∀ sub origin topic seq,
        (sub, origin, topic, seq) ∈ acts.filterMap deliveryKey →
          seq.toNat ∉ seen origin topic ∧ seq.toNat ∈ seen' origin topic := by
  induction events with
  | nil =>
    intro p q acts seen htracks h
    cases h
    exact ⟨seen, htracks, fun _ _ => Finset.Subset.refl _, List.nodup_nil, by simp⟩
  | cons e events ih =>
    intro p q acts seen htracks h
    obtain ⟨p1, out, rest, hstep, hrest, rfl⟩ := emitAll_cons_inv h
    have hwatch : watch build.readEnvelope build.debug (p, seen) (now, e) =
        some ((p1, seen.step build.readEnvelope p e out), out) := by
      simp only [watch]
      rw [show p.handle build.readEnvelope build.debug now e = some (p1, out) from hstep]
      rfl
    have hwatched := watch_spec htracks hwatch
    obtain ⟨hnodup, hkeys⟩ := hwatched.deliveries
    obtain ⟨seen', htracks', hsubset, hnodup', hkeys'⟩ := ih (htracks.watched hwatched) hrest
    refine ⟨seen', htracks', fun o t => (hwatched.subset o t).trans (hsubset o t), ?_, ?_⟩
    · rw [List.filterMap_append]
      refine List.Nodup.append hnodup hnodup' ?_
      rintro ⟨sub, origin, topic, seq⟩ hfirst hlater
      exact (hkeys' sub origin topic seq hlater).1 (hkeys sub origin topic seq hfirst).2
    · intro sub origin topic seq hmem
      rw [List.filterMap_append] at hmem
      rcases List.mem_append.mp hmem with hmem | hmem
      · obtain ⟨hfresh, hseen⟩ := hkeys sub origin topic seq hmem
        exact ⟨hfresh, hsubset origin topic hseen⟩
      · obtain ⟨hfresh, hseen⟩ := hkeys' sub origin topic seq hmem
        exact ⟨fun hold => hfresh (hwatched.subset origin topic hold), hseen⟩

namespace Bus

variable {ι : Type} [DecidableEq ι] {build : Build} {me : ι → NodeId}
  {wire : ι × LinkId → Option (ι × LinkId)}

/-- The windows of a node hold what it has handed out in this life. -/
structure Once (bus : Bus ι) : Prop where
  lives : ∀ d ∈ bus.delivered, d.life ≤ bus.life d.node
  keys : (bus.delivered.map Delivery.key).Nodup
  tracked : ∀ i rt, bus.node i = some rt → ∃ seen, Tracks rt.pubsub.received seen ∧
    ∀ d ∈ bus.delivered, d.node = i → d.life = bus.life i →
      d.message.envelope.seq.toNat ∈ seen d.message.envelope.origin d.message.envelope.topic

omit [DecidableEq ι] in
theorem once_init : Once (init : Bus ι) where
  lives _ h := by cases h
  keys := List.nodup_nil
  tracked _ _ h := by cases h

theorem Once.start {bus : Bus ι} (hs : Once bus) (i : ι) (epoch : UInt32) (persistedSeq : UInt64)
    (policies : TopicPolicies) : Once { bus with
      node := Function.update bus.node i (some (.spawn (me i) epoch persistedSeq policies))
      life := Function.update bus.life i (bus.life i + 1) } := by
  have hlife : ∀ j, bus.life j ≤ Function.update bus.life i (bus.life i + 1) j :=
    (Function.forall_update_iff bus.life fun j n => bus.life j ≤ n).mpr
      ⟨Nat.le_succ _, fun _ _ => le_rfl⟩
  refine ⟨fun d hd => (hs.lives d hd).trans (hlife d.node), hs.keys, ?_⟩
  intro j rt hj
  by_cases hji : j = i
  · subst hji
    simp only [Function.update_self] at hj ⊢
    cases hj
    -- nothing was handed out in a life that begins
    refine ⟨_, tracks_new (me j) policies, fun d hd hnode hnew => ?_⟩
    have hold := hs.lives d hd
    rw [hnode] at hold
    omega
  · simp only [Function.update_of_ne hji] at hj ⊢
    exact hs.tracked j rt hj

theorem Once.taken {bus : Bus ι} {i : ι} {rt : RuntimeState} {r : RuntimeState × List Effect × Bool}
    (hs : Once bus) (hi : bus.node i = some rt) (h : rt.iterate build outside input = some r) :
    Once (bus.taken me wire i outside input r) := by
  obtain ⟨rt', effects, continues⟩ := r
  cases continues with
  | false =>
    obtain ⟨-, hnone⟩ := iterate_stopped h
    have hsame : (bus.taken me wire i outside input (rt', effects, false)).delivered =
        bus.delivered := by
      simp [Bus.taken, deliveries, hnone]
    refine ⟨?_, ?_, ?_⟩
    · rw [hsame]
      exact hs.lives
    · rw [hsame]
      exact hs.keys
    · rw [hsame]
      exact update_node (by simp) hs.tracked
  | true =>
    obtain ⟨planeActions, forwardActions, pubsubActions, hturned⟩ := iterate_turned h
    obtain ⟨seen, htracks, hseen⟩ := hs.tracked i rt hi
    obtain ⟨discoveries, -, hpubsub⟩ := hturned.pubsub
    obtain ⟨seen', htracks', hsubset, hnodup, hfresh⟩ := pubSubSteps_once htracks hpubsub
    rw [← deliveries_keys hturned.outcomes] at hnodup hfresh
    have hnew : ∀ x ∈ deliveries effects,
        x.2.envelope.seq.toNat ∉ seen x.2.envelope.origin x.2.envelope.topic ∧
        x.2.envelope.seq.toNat ∈ seen' x.2.envelope.origin x.2.envelope.topic :=
      fun x hx => hfresh _ _ _ _ (List.mem_map.mpr ⟨x, hx, rfl⟩)
    refine ⟨?_, ?_, ?_⟩
    · intro d hd
      rcases List.mem_append.mp hd with hd | hd
      · exact hs.lives d hd
      · obtain ⟨x, -, rfl⟩ := List.mem_map.mp hd
        exact le_rfl
    · have hmapped : (((deliveries effects).map fun x =>
          (⟨i, bus.life i, x.1, x.2⟩ : Delivery ι)).map Delivery.key) =
          ((deliveries effects).map messageKey).map fun key => (i, bus.life i, key) := by
        rw [List.map_map, List.map_map]
        rfl
      simp only [Bus.taken, List.map_append]
      rw [hmapped]
      refine List.Nodup.append hs.keys (hnodup.map fun _ _ heq => ?_) ?_
      · simpa using heq
      · -- what was handed out before in this life was seen
        intro key hold hlater
        obtain ⟨d, hd, rfl⟩ := List.mem_map.mp hold
        obtain ⟨_, hmem, heq⟩ := List.mem_map.mp hlater
        obtain ⟨x, hx, rfl⟩ := List.mem_map.mp hmem
        simp only [Delivery.key, messageKey, Prod.mk.injEq] at heq
        obtain ⟨hnode, hlife, -, horigin, htopic, hseq⟩ := heq
        refine (hnew x hx).1 ?_
        rw [hseq, horigin, htopic]
        exact hseen d hd hnode.symm hlife.symm
    · intro j rtj hj
      simp only [Bus.taken, if_true] at hj ⊢
      by_cases hji : j = i
      · subst hji
        rw [Function.update_self] at hj
        cases hj
        refine ⟨seen', htracks', fun d hd hnode hlife => ?_⟩
        rcases List.mem_append.mp hd with hd | hd
        · exact hsubset _ _ (hseen d hd hnode hlife)
        · obtain ⟨x, hx, rfl⟩ := List.mem_map.mp hd
          exact (hnew x hx).2
      · rw [Function.update_of_ne hji] at hj
        obtain ⟨seen1, htracks1, hseen1⟩ := hs.tracked j rtj hj
        refine ⟨seen1, htracks1, fun d hd hnode hlife => ?_⟩
        rcases List.mem_append.mp hd with hd | hd
        · exact hseen1 d hd hnode hlife
        · obtain ⟨x, -, rfl⟩ := List.mem_map.mp hd
          exact absurd hnode.symm hji

theorem Once.step {bus bus' : Bus ι} {s : BusStep ι} (hs : Once bus)
    (h : bus.step build me wire s = some bus') : Once bus' := by
  have hmoved : ∀ flight, Once { bus with flight := flight } :=
    fun _ => ⟨hs.lives, hs.keys, hs.tracked⟩
  refine step_inv hs.start (fun flight _ => hmoved flight) ?_ ?_ h
  · exact fun _ _ _ => ⟨hs.lives, hs.keys, update_node (by simp) hs.tracked⟩
  · exact fun flight _ _ _ _ _ _ hi _ hiter => (hmoved flight).taken hi hiter

/-- As before, with the last frame copied. -/
def lineCopied : List (BusStep LineNode) :=
  linePublish.insertIdx 9 (.copy 6) ++ [.arrive 6 (lineOutside 204)]

/-- In one life of a node, no subscriber is handed the same number of the same topic and origin
twice, whatever the links and the other nodes do. -/
theorem delivered_once {steps : List (BusStep ι)} {bus : Bus ι}
    (h : (init : Bus ι).run build me wire steps = some bus) :
    (bus.delivered.map Delivery.key).Nodup :=
  (foldlM_inv (P := Once) (fun _ _ _ hs hstep => hs.step hstep) once_init h).keys

/-- The packet arrives twice at the third node; its subscriber is handed it once. -/
theorem delivered_once_line :
    ∃ bus, (init : Bus LineNode).run lineBuild lineMe lineWire (lineStart ++ lineCopied) =
        some bus ∧ bus.delivered = [lineDelivery] ∧
      (bus.delivered.map Delivery.key).Nodup := by
  have hfacts : ((init : Bus LineNode).run lineBuild lineMe lineWire
      (lineStart ++ lineCopied)).map Bus.delivered = some [lineDelivery] := by
    decide +kernel
  obtain ⟨bus, hrun, hdelivered⟩ := Option.map_eq_some_iff.mp hfacts
  exact ⟨bus, hrun, hdelivered, delivered_once hrun⟩

end Bus
end Runtime
end MeshBus
