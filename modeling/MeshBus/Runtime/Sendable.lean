import MeshBus.Forward.Conservation
import MeshBus.Runtime.Writes

/-!
# Runtime.Sendable

What the forwarder sends, the peer reads. A packet enters a forwarder through one of three checks:
`ControlRuntime::send` encodes it, `MulticastPayload::new` builds it, or `decode_forward_frame`
returned it. Whatever is queued, conflated, parked, split or rerouted afterwards is a copy for
some of its destinations, in order; such a copy encodes, and is decoded as it was.
-/

namespace MeshBus
namespace Runtime

open Control Forward Wire Forwarder

/-- A packet that encodes and lists its destinations in order. -/
def Sendable (packet : ForwardPacket) : Prop :=
  ForwardPacketCodec.Encodable packet ∧ packet.multicastDestinations.Pairwise (· < ·)

/-- An encodable packet may list its destinations in any order; its copies are in order. -/
theorem copied_sendable {packet : ForwardPacket} (hpacket : ForwardPacketCodec.Encodable packet) :
    Copied Sendable packet := by
  intro ds g ttl hds hsub hne
  refine ⟨inherited_encodable packet ds g ttl hpacket hds hsub hne, ?_⟩
  by_cases hm : packet.header.packetType = .multicast
  · obtain ⟨m, -, rfl, -⟩ := accepted_multicast hm hds
    simp only [copyFor, hm, if_true]
    exact m.sorted.sublist hsub
  · rcases hpacket with ⟨-, hnone, -⟩ | ⟨hmulti, -⟩
    · simp only [copyFor, if_neg hm, hnone]
      exact .nil
    · exact absurd hmulti hm

theorem inherited_sendable : Inherited Sendable :=
  fun _ ds g ttl hpacket => copied_sendable hpacket.1 ds g ttl

/-! ## One packet -/

/-- The frame `execute_forward_actions` builds from an encoded packet. -/
def frameFor (packet : ForwardPacket) (payload : Bytes) : WireFrame :=
  ⟨.forward, channelForPriority packet.header.priority, payload⟩

theorem decodeForwardFrame_frameFor {packet : ForwardPacket} {payload : Bytes}
    (h : ForwardPacketCodec.decode payload = .ok packet) :
    decodeForwardFrame (frameFor packet payload) = .ok packet := by
  simp only [decodeForwardFrame, frameFor, ne_eq, not_true_eq_false, if_false, h]

/-- The packet encodes, its frame encodes, and both are read back, whatever follows. -/
def ReadBack (packet : ForwardPacket) : Prop :=
  ∃ payload bytes, ForwardPacketCodec.encode packet = .ok payload ∧
    FrameEncoder.encode (frameFor packet payload) = .ok bytes ∧
    (∀ rest, FrameDecoder.decode (bytes ++ rest) = .ok (some (frameFor packet payload, rest))) ∧
    decodeForwardFrame (frameFor packet payload) = .ok packet

theorem Sendable.readBack {packet : ForwardPacket} (h : Sendable packet) : ReadBack packet := by
  obtain ⟨hencodable, hsorted⟩ := h
  obtain ⟨payload, hpayload⟩ := (ForwardPacketCodec.encode_iff packet).mpr hencodable
  have hle : (frameFor packet payload).payload.length ≤ maxPayloadLen := by
    rw [frameFor, ForwardPacketCodec.length_encode hpayload]
    exact encodedLen_le_of_encodable hencodable
  have hdecode : ForwardPacketCodec.decode payload = .ok packet := by
    have hsort := ForwardPacketCodec.decode_encode hpayload
    rwa [(hsorted.imp le_of_lt).insertionSort_eq] at hsort
  exact ⟨payload, _, hpayload, FrameEncoder.encode_of_le hle, FrameDecoder.decode_frameBytes hle,
    decodeForwardFrame_frameFor hdecode⟩

/-- A peer in any state takes the frame of such a packet; it does not close the link. -/
theorem dispatchLink_open {build : Build} {outside : Outside} {peer : RuntimeState}
    {link : LinkId} {packet : ForwardPacket} {payload : Bytes}
    (h : decodeForwardFrame (frameFor packet payload) = .ok packet) (closed : LinkId) :
    peer.dispatchLink build outside (.frame link (frameFor packet payload)) ≠
      some (.close closed) := by
  intro hclose
  simp only [RuntimeState.dispatchLink, h, if_pos (show (frameFor packet payload).frameType =
    .forward from rfl)] at hclose
  obtain ⟨⟨rt, acts⟩, -, hturn⟩ := Option.bind_eq_some_iff.mp hclose
  cases hturn

/-! ## Runs -/

/-- Where a packet comes from: `ControlRuntime::send` has encoded it, or a frame was decoded.
`OutboundMulticast` is checked by the forwarder itself. -/
def Admitted : ForwardEvent → Prop
  | .outbound packet => ∃ payload, ForwardPacketCodec.encode packet = .ok payload
  | .inbound _ packet => ∃ frame, decodeForwardFrame frame = .ok packet
  | _ => True

theorem Admitted.encodable {event : ForwardEvent} (h : Admitted event) {incoming : Option LinkId}
    {packet : ForwardPacket} (hp : processed event = some (incoming, packet)) :
    ForwardPacketCodec.Encodable packet := by
  cases event with
  | outbound p =>
    cases hp
    exact (ForwardPacketCodec.encode_iff packet).mp h
  | outboundMulticast destinations p => exact processed_multicast_encodable hp
  | inbound link p =>
    cases hp
    obtain ⟨frame, hframe⟩ := h
    exact Driven.decodeForwardFrame_encodable hframe
  | linkCredit _ _ | linkWritable _ | routesUpdated _ | linkDown _ | timer _ => cases hp

theorem holds_new (P : ForwardPacket → Prop) (me : NodeId) (routes : RouteTable) :
    Holds P (Forwarder.new me routes) := by
  refine ⟨?_, ?_⟩
  · intro l priority q hq
    simp [Forwarder.new, queue, linkState] at hq
    cases hq
  · intro g batch hbatch
    simp [Forwarder.new] at hbatch

theorem run_sendable {me : NodeId} {routes : RouteTable} {events : List (MonoTime × ForwardEvent)}
    {f : Forwarder} {acts : List ForwardAction} (hevents : ∀ e ∈ events, Admitted e.2)
    (h : (Forwarder.new me routes).run events = some (f, acts)) :
    ∀ link packet, .send link packet ∈ acts → Sendable packet := by
  have hout := emitAll_out (P := Holds Sendable) (R := fun e => Admitted e.2)
    (Q := fun action => ∀ link packet, action = .send link packet → Sendable packet)
    ?_ hevents (holds_new Sendable me routes) h
  · intro link packet hmem
    exact hout.2 _ hmem link packet rfl
  · intro g e g' out hg he hstep
    have hcopied : ∀ incoming packet, processed e.2 = some (incoming, packet) →
        Copied Sendable packet :=
      fun incoming packet hp => copied_sendable (he.encodable hp)
    obtain ⟨hg', hsent⟩ := handle_holds inherited_sendable hg hcopied hstep
    refine ⟨hg', ?_⟩
    rintro action hmem link packet rfl
    exact hsent (link, packet) (mem_sentOn.mpr hmem)

/-- Everything the forwarder sends is read back by the peer as it was sent. No send is skipped
for want of an encoding, and no peer closes the link on it. -/
theorem sent_packets_read_back (me : NodeId) (routes : RouteTable)
    (events : List (MonoTime × ForwardEvent)) (f : Forwarder) (acts : List ForwardAction)
    (hevents : ∀ e ∈ events, Admitted e.2)
    (h : (Forwarder.new me routes).run events = some (f, acts)) :
    (∀ link packet, .send link packet ∈ acts → ∃ payload bytes,
      ForwardPacketCodec.encode packet = .ok payload ∧
      FrameEncoder.encode (frameFor packet payload) = .ok bytes ∧
      (∀ rest, FrameDecoder.decode (bytes ++ rest) = .ok (some (frameFor packet payload, rest))) ∧
      decodeForwardFrame (frameFor packet payload) = .ok packet ∧
      ∀ (build : Build) (outside : Outside) (peer : RuntimeState) (l closed : LinkId),
        peer.dispatchLink build outside (.frame l (frameFor packet payload)) ≠
          some (.close closed)) ∧
    (forwardFrames acts).map Prod.fst = (sentOn acts).map Prod.fst := by
  have hsendable := run_sendable hevents h
  refine ⟨?_, ?_⟩
  · intro link packet hmem
    obtain ⟨payload, bytes, hpayload, hbytes, hread, hdecode⟩ :=
      (hsendable link packet hmem).readBack
    exact ⟨payload, bytes, hpayload, hbytes, hread, hdecode,
      fun build outside peer l closed => dispatchLink_open hdecode closed⟩
  · refine (Driven.lengths_forwardFrames ?_).2.2
    rintro ⟨link, packet⟩ hx
    exact (hsendable link packet (mem_sentOn.mp hx)).1

/-- A multicast whose destinations are submitted out of order, on a link with credit. -/
def multicastRun : List (MonoTime × ForwardEvent) :=
  [(0, .linkCredit 7 maxPayloadLen), (0, .linkWritable 7),
    (0, .outbound ForwardPacketCodec.multicastSample)]

/-- The copy that is sent lists its destinations in order, and is read back as it is. -/
theorem sent_packets_read_back_multicast : ∃ link packet payload,
    packet.multicastDestinations = [.ofByte 2, .ofByte 3] ∧
    ForwardPacketCodec.encode packet = .ok payload ∧
    decodeForwardFrame (frameFor packet payload) = .ok packet ∧
    ∃ f acts, (Forwarder.new (.ofByte 1) sampleRoutes).run multicastRun = some (f, acts) ∧
      .send link packet ∈ acts := by
  have hsent : (((Forwarder.new (.ofByte 1) sampleRoutes).run multicastRun).map fun r =>
      (sentOn r.2).map fun x => x.2.multicastDestinations) =
        some [[.ofByte 2, .ofByte 3]] := by
    decide +kernel
  obtain ⟨⟨f, acts⟩, hrun, hlists⟩ := Option.map_eq_some_iff.mp hsent
  obtain ⟨⟨link, packet⟩, hmem, hds⟩ := List.mem_map.mp (hlists ▸ List.mem_singleton_self _)
  have hsample : (ForwardPacketCodec.encode ForwardPacketCodec.multicastSample).isOk = true := by
    decide +kernel
  have hevents : ∀ e ∈ multicastRun, Admitted e.2 := by
    intro e he
    fin_cases he
    · trivial
    · trivial
    · cases hencode : ForwardPacketCodec.encode ForwardPacketCodec.multicastSample with
      | ok payload => exact ⟨payload, hencode⟩
      | error e =>
        rw [hencode] at hsample
        cases hsample
  obtain ⟨payload, -, hpayload, -, -, hdecode, -⟩ :=
    (sent_packets_read_back (.ofByte 1) sampleRoutes multicastRun f acts hevents hrun).1 link packet
      (mem_sentOn.mp hmem)
  exact ⟨link, packet, payload, hds, hpayload, hdecode, f, acts, hrun, mem_sentOn.mp hmem⟩

end Runtime
end MeshBus
