import MeshBus.Forward.Trace
import MeshBus.PubSub.Publish
import MeshBus.Runtime.InSync

/-!
# Runtime.Bus

A bus of nodes, each one a runtime loop, joined by links that delay, reorder, copy or lose frames.
Nodes start, crash and start again at any time, and clients publish, subscribe and send packets. A
step is the start of a node, an input that does not come from the wire, or what becomes of a frame.

`published` and `delivered` are history: what clients were told is published, and what was handed
to subscribers, with the life of the node in which it was.
-/

namespace MeshBus
namespace Runtime

open Control Forward Wire PubSub Forwarder

/-- A message that was handed to a subscriber. -/
structure Delivery (ι : Type) where
  node : ι
  life : Nat
  sub : SubId
  message : DeliveredMessage
deriving DecidableEq

structure Bus (ι : Type) where
  /-- The loop of a node, while it runs. -/
  node : ι → Option RuntimeState
  /-- How often a node was started. -/
  life : ι → Nat
  /-- Frames on the way, with the node and the link they arrive at. -/
  flight : List (ι × LinkId × WireFrame)
  published : List Envelope
  delivered : List (Delivery ι)

inductive BusStep (ι : Type) where
  | start (i : ι) (epoch : UInt32) (persistedSeq : UInt64) (policies : TopicPolicies)
  | input (i : ι) (outside : Outside) (input : RuntimeInput)
  | arrive (n : Nat) (outside : Outside)
  | lose (n : Nat)
  | copy (n : Nat)

/-- Frames arrive only from the flight, and only the loop makes discoveries and inbound payloads. -/
def RuntimeInput.isLocal : RuntimeInput → Bool
  | .link (.frame _ _) => false
  | .pubSub (.inbound _ _) => false
  | .pubSub (.discoveryUpdated _) => false
  | _ => true

/-- The envelopes that a client at `me` is told are published. -/
def publications (me : NodeId) (now : MonoTime) (input : RuntimeInput) (effects : List Effect) :
    List Envelope :=
  match input with
  | .pubSub (.localPublish _ payload) =>
    (outcomes effects).filterMap fun
      | .published topic seq => some ⟨me, topic, seq, .ofNat now, payload⟩
      | _ => none
  | _ => []

/-- What subscribers are handed. -/
def deliveries (effects : List Effect) : List (SubId × DeliveredMessage) :=
  (outcomes effects).filterMap fun
    | .delivered sub message => some (sub, message)
    | _ => none

namespace Bus

variable {ι : Type} [DecidableEq ι]

def init : Bus ι where
  node _ := none
  life _ := 0
  flight := []
  published := []
  delivered := []

/-- What the frames of node `i` put in flight; a link may lead nowhere. -/
def launched (wire : ι × LinkId → Option (ι × LinkId)) (i : ι) (sent : List (LinkId × WireFrame)) :
    List (ι × LinkId × WireFrame) :=
  sent.filterMap fun x => (wire (i, x.1)).map fun far => (far.1, far.2, x.2)

/-- Node `i` has taken an input, with result `r`. -/
def taken (me : ι → NodeId) (wire : ι × LinkId → Option (ι × LinkId)) (bus : Bus ι) (i : ι)
    (outside : Outside) (input : RuntimeInput) (r : RuntimeState × List Effect × Bool) : Bus ι where
  node := Function.update bus.node i (if r.2.2 then some r.1 else none)
  life := bus.life
  flight := bus.flight ++ launched wire i (frames r.2.1)
  published := bus.published ++ publications (me i) outside.now input r.2.1
  delivered := bus.delivered ++
    (deliveries r.2.1).map fun x => ⟨i, bus.life i, x.1, x.2⟩

/-- Node `i`, which must be running, takes an input; a panic ends its loop. -/
def take (build : Build) (me : ι → NodeId) (wire : ι × LinkId → Option (ι × LinkId)) (bus : Bus ι)
    (i : ι) (outside : Outside) (input : RuntimeInput) : Option (Bus ι) :=
  match bus.node i with
  | none => none
  | some rt =>
    match rt.iterate build outside input with
    | none => some { bus with node := Function.update bus.node i none }
    | some r => some (bus.taken me wire i outside input r)

def step (build : Build) (me : ι → NodeId) (wire : ι × LinkId → Option (ι × LinkId)) (bus : Bus ι) :
    BusStep ι → Option (Bus ι)
  | .start i epoch persistedSeq policies =>
    some { bus with
      node := Function.update bus.node i (some (.spawn (me i) epoch persistedSeq policies))
      life := Function.update bus.life i (bus.life i + 1) }
  | .input i outside input =>
    if input.isLocal then bus.take build me wire i outside input else none
  | .arrive n outside =>
    match bus.flight[n]? with
    | none => none
    | some (j, link, frame) =>
      { bus with flight := bus.flight.eraseIdx n }.take build me wire j outside
        (.link (.frame link frame))
  | .lose n =>
    if n < bus.flight.length then some { bus with flight := bus.flight.eraseIdx n } else none
  | .copy n => bus.flight[n]?.map fun x => { bus with flight := bus.flight ++ [x] }

def run (build : Build) (me : ι → NodeId) (wire : ι × LinkId → Option (ι × LinkId)) (bus : Bus ι)
    (steps : List (BusStep ι)) : Option (Bus ι) :=
  steps.foldlM (step build me wire) bus

/-- A node takes an input in this step: one that is not from the wire, or a frame that was in
flight. -/
def Brings (bus : Bus ι) (s : BusStep ι) (i : ι) (outside : Outside) (input : RuntimeInput) :
    Prop :=
  (s = .input i outside input ∧ input.isLocal = true) ∨
    ∃ link, ∃ x ∈ bus.flight, input = .link (.frame link x.2.2)

/-- Everything a step can do. -/
theorem step_inv {build : Build} {me : ι → NodeId} {wire : ι × LinkId → Option (ι × LinkId)}
    {P : Bus ι → Prop} {bus bus' : Bus ι} {s : BusStep ι}
    (start : ∀ i epoch persistedSeq policies, P { bus with
      node := Function.update bus.node i (some (.spawn (me i) epoch persistedSeq policies))
      life := Function.update bus.life i (bus.life i + 1) })
    (moved : ∀ flight, (∀ x ∈ flight, x ∈ bus.flight) → P { bus with flight := flight })
    (stopped : ∀ flight i, (∀ x ∈ flight, x ∈ bus.flight) →
      P { bus with flight := flight, node := Function.update bus.node i none })
    (taken : ∀ flight i rt outside input r, (∀ x ∈ flight, x ∈ bus.flight) →
      bus.node i = some rt → bus.Brings s i outside input →
      rt.iterate build outside input = some r →
      P ({ bus with flight := flight }.taken me wire i outside input r))
    (h : bus.step build me wire s = some bus') : P bus' := by
  have htake : ∀ {flight : List (ι × LinkId × WireFrame)} {i : ι} {outside : Outside}
      {input : RuntimeInput}, (∀ x ∈ flight, x ∈ bus.flight) → bus.Brings s i outside input →
      { bus with flight := flight }.take build me wire i outside input = some bus' → P bus' := by
    intro flight i outside input hflight hbrings h
    unfold Bus.take at h
    split at h
    · cases h
    · rename_i rt hi
      split at h
      · cases h
        exact stopped flight i hflight
      · rename_i r hiter
        cases h
        exact taken flight i rt outside input r hflight hi hbrings hiter
  cases s with
  | start i epoch persistedSeq policies =>
    cases h
    exact start i epoch persistedSeq policies
  | input i outside input =>
    simp only [Bus.step] at h
    split at h
    · rename_i hlocal
      exact htake (fun _ hx => hx) (.inl ⟨rfl, hlocal⟩) h
    · cases h
  | arrive n outside =>
    simp only [Bus.step] at h
    split at h
    · cases h
    · rename_i j link frame hn
      exact htake (fun _ => List.mem_of_mem_eraseIdx)
        (.inr ⟨link, _, List.mem_of_getElem? hn, rfl⟩) h
  | lose n =>
    simp only [Bus.step] at h
    split at h
    · cases h
      exact moved _ fun _ => List.mem_of_mem_eraseIdx
    · cases h
  | copy n =>
    obtain ⟨x, hn, rfl⟩ := Option.map_eq_some_iff.mp h
    refine moved _ fun y hy => ?_
    rcases List.mem_append.mp hy with hy | hy
    · exact hy
    · cases List.mem_singleton.mp hy
      exact List.mem_of_getElem? hn

/-! ### Three nodes in a line -/

/-- A release build. -/
def lineBuild : Build := { Linked.neighbourBuild with debug := false }

/-- The nodes of a line. -/
inductive LineNode where
  | first
  | second
  | third
deriving DecidableEq

def lineMe : LineNode → NodeId
  | .first => .ofByte 1
  | .second => .ofByte 2
  | .third => .ofByte 3

def lineWire : LineNode × LinkId → Option (LineNode × LinkId)
  | (.first, 7) => some (.second, 3)
  | (.second, 3) => some (.first, 7)
  | (.second, 4) => some (.third, 5)
  | (.third, 5) => some (.second, 4)
  | _ => none

/-- Every node has a cost for every other. -/
def lineOutside (now : MonoTime) : Outside where
  now := now
  peerCosts := (((∅ : OrdMap NodeId LinkCost).insert (.ofByte 1) unitCost).insert (.ofByte 2)
    unitCost).insert (.ofByte 3) unitCost
  persists _ := true

/-- The nodes start, the third with a subscriber, and their links come up. -/
def lineStart : List (BusStep LineNode) :=
  [.start .first 1 0 samplePolicies, .start .second 1 0 samplePolicies,
    .start .third 1 0 samplePolicies,
    .input .third (lineOutside 0) (.pubSub (.localSubscribe 5 (.exact (.ofByte 116)))),
    .input .first (lineOutside 1) (.link (.up 7 (.ofByte 2))),
    .input .second (lineOutside 1) (.link (.up 3 (.ofByte 1))),
    .input .third (lineOutside 1) (.link (.up 5 (.ofByte 2))),
    .input .second (lineOutside 1) (.link (.up 4 (.ofByte 3)))]

/-- LSAs arrive, one frame is lost, the routes are computed, and a client of the first node
publishes; the packet is forwarded by the second node to the third. -/
def linePublish : List (BusStep LineNode) :=
  [.arrive 0 (lineOutside 2), .arrive 3 (lineOutside 2), .arrive 4 (lineOutside 2),
    .arrive 7 (lineOutside 2), .lose 0,
    .input .second (lineOutside 200) (.timer (.control (.spfHold 1))),
    .input .first (lineOutside 200) (.timer (.control (.spfHold 1))),
    .input .first (lineOutside 201) (.pubSub (.localPublish (.ofByte 116) [42])),
    .arrive 6 (lineOutside 202), .arrive 6 (lineOutside 203)]

def lineDelivery : Delivery LineNode :=
  ⟨.third, 1, 5, ⟨⟨.ofByte 1, .ofByte 116, 1, 201, [42]⟩, false⟩⟩

theorem line_delivers : ((init : Bus LineNode).run lineBuild lineMe lineWire
    (lineStart ++ linePublish)).map (fun bus => (bus.delivered, bus.published)) =
      some ([lineDelivery], [lineDelivery.message.envelope]) := by
  decide +kernel

end Bus

/-! ## An iteration that is the last -/

/-- When the loop returns, no packet is sent and no outcome is reported. -/
theorem iterate_stopped {build : Build} {outside : Outside} {rt rt' : RuntimeState}
    {input : RuntimeInput} {effects : List Effect}
    (h : rt.iterate build outside input = some (rt', effects, false)) :
    (∀ x ∈ frames effects, x.2.frameType ≠ .forward) ∧ outcomes effects = [] := by
  simp only [RuntimeState.iterate, RuntimeState.collect, bind, Option.bind_eq_some_iff] at h
  obtain ⟨⟨s1, goes⟩, ⟨d, -, hs⟩, h⟩ := h
  obtain rfl : goes = false := by
    cases goes with
    | false => rfl
    | true =>
      obtain ⟨_, -, heq⟩ := Option.bind_eq_some_iff.mp h
      cases heq
  cases h
  cases d with
  | close link => cases hs
  | turn rt1 turn =>
    simp only [Option.bind_eq_some_iff] at hs
    obtain ⟨⟨s, continues⟩, hcontrol, hs⟩ := hs
    cases continues with
    | true =>
      obtain ⟨_, -, heq⟩ := Option.bind_eq_some_iff.mp hs
      cases heq
    | false =>
      cases hs
      unfold RuntimeState.control at hcontrol
      split at hcontrol
      · cases hcontrol
      · simp only [bind, Option.bind_eq_some_iff] at hcontrol
        obtain ⟨⟨plane, actions⟩, -, hrun⟩ := hcontrol
        exact ⟨runControl_frames hrun (by simp [frames]), (runControl_runs hrun).1⟩

/-! ## What a step of the Pub/Sub core sends and delivers -/

section PubSubSteps

variable {build : Build} {now : MonoTime}

theorem subscriptionChange_sends {q : PubSub} {previous : OrdSet TopicSelector}
    {action : PubSubAction} (h : action ∈ q.subscriptionChange previous) :
    ∃ selectors, action = .localSubscriptionsChanged selectors := by
  simp only [subscriptionChange] at h
  split at h
  · cases h
  · exact ⟨_, List.mem_singleton.mp h⟩

/-- What is sent is the envelope of a publication that is reported. -/
theorem pubSubStep_sends {p q : PubSub} {e : PubSubEvent} {acts : List PubSubAction}
    (h : pubSubStep build now p e = some (q, acts)) {destinations : List NodeId}
    {priority : Priority} {flowId conflateKey : UInt64} {conflatable : Bool} {encoded : Bytes}
    (hsend : .sendMulticast destinations priority flowId conflateKey conflatable encoded ∈ acts) :
    ∃ topic payload seq, e = .localPublish topic payload ∧ .published topic seq ∈ acts ∧
      EnvelopeCodec.encode ⟨p.me, topic, seq, .ofNat now, payload⟩ = .ok encoded := by
  cases e with
  | localPublish topic payload =>
    rcases publish_cases h with hpub | ⟨reason, rfl, -⟩
    · obtain ⟨policy, encoded', sent, hencoded, -, hsent, rfl⟩ := hpub.emitted
      refine ⟨topic, payload, _, rfl, List.mem_append_right _ (List.mem_singleton_self _), ?_⟩
      rcases List.mem_append.mp hsend with hmem | hmem
      · obtain ⟨_, _, _, _, _, heq⟩ := mem_sends hsent hmem
        cases heq
        exact hencoded
      · cases List.mem_singleton.mp hmem
    · cases List.mem_singleton.mp hsend
  | localSubscribe subId selector =>
    cases h
    obtain ⟨selectors, heq⟩ := subscriptionChange_sends hsend
    cases heq
  | localUnsubscribe subId =>
    cases h
    obtain ⟨selectors, heq⟩ := subscriptionChange_sends hsend
    cases heq
  | inbound source payload =>
    have hq : p.receive build.readEnvelope source payload = (q, acts) := Option.some.inj h
    have hmem : .sendMulticast destinations priority flowId conflateKey conflatable encoded ∈
        (p.receive build.readEnvelope source payload).2 := by
      rw [hq]
      exact hsend
    exact absurd rfl (receive_sends_nothing hmem _ _ _ _ _ _)
  | discoveryUpdated discovery =>
    cases h
    cases hsend

/-- What is delivered was in an inbound payload. -/
theorem pubSubStep_delivers {p q : PubSub} {e : PubSubEvent} {acts : List PubSubAction}
    (h : pubSubStep build now p e = some (q, acts)) {sub : SubId} {message : DeliveredMessage}
    (hdelivers : .deliverToApp sub message ∈ acts) :
    ∃ source payload, e = .inbound source payload ∧
      EnvelopeCodec.decode build.readEnvelope payload = .ok message.envelope := by
  cases e with
  | localPublish topic payload =>
    rcases publish_cases h with hpub | ⟨reason, rfl, -⟩
    · obtain ⟨policy, encoded, sent, -, -, hsent, rfl⟩ := hpub.emitted
      rcases List.mem_append.mp hdelivers with hmem | hmem
      · obtain ⟨_, _, _, _, _, heq⟩ := mem_sends hsent hmem
        cases heq
      · cases List.mem_singleton.mp hmem
    · cases List.mem_singleton.mp hdelivers
  | localSubscribe subId selector =>
    cases h
    obtain ⟨selectors, heq⟩ := subscriptionChange_sends hdelivers
    cases heq
  | localUnsubscribe subId =>
    cases h
    obtain ⟨selectors, heq⟩ := subscriptionChange_sends hdelivers
    cases heq
  | inbound source payload =>
    have hq : p.receive build.readEnvelope source payload = (q, acts) := Option.some.inj h
    refine ⟨source, payload, rfl, ?_⟩
    by_cases hadmits : ∃ envelope, Admits build.readEnvelope p source payload envelope
    · obtain ⟨envelope, hadmits⟩ := hadmits
      rw [receive_admitted hadmits] at hq
      cases hq
      split at hdelivers
      · obtain ⟨sub', selector, -, -, heq⟩ := ((p.localDeliveries_spec envelope).2 _).mp hdelivers
        cases heq
        exact hadmits.1
      · cases List.mem_singleton.mp hdelivers
    · obtain ⟨reason, hreceive⟩ := receive_refused (not_exists.mp hadmits)
      rw [hreceive] at hq
      cases hq
      cases List.mem_singleton.mp hdelivers
  | discoveryUpdated discovery =>
    cases h
    cases hdelivers

theorem pubSubSteps_me {p q : PubSub} {events : List PubSubEvent} {acts : List PubSubAction}
    (h : emitAll (pubSubStep build now) p events = some (q, acts)) : q.me = p.me :=
  emitAll_inv (P := fun r => r.me = p.me)
    (fun _ _ _ _ hr hstep => (pubSubStep_keeps hstep).1.trans hr) rfl h

theorem pubSubSteps_sends {events : List PubSubEvent} : ∀ {p q : PubSub}
    {acts : List PubSubAction}, emitAll (pubSubStep build now) p events = some (q, acts) →
    ∀ {destinations : List NodeId} {priority : Priority} {flowId conflateKey : UInt64}
      {conflatable : Bool} {encoded : Bytes},
    .sendMulticast destinations priority flowId conflateKey conflatable encoded ∈ acts →
    ∃ topic payload seq, .localPublish topic payload ∈ events ∧ .published topic seq ∈ acts ∧
      EnvelopeCodec.encode ⟨p.me, topic, seq, .ofNat now, payload⟩ = .ok encoded := by
  induction events with
  | nil =>
    intro p q acts h _ _ _ _ _ _ hsend
    cases h
    cases hsend
  | cons e events ih =>
    intro p q acts h _ _ _ _ _ _ hsend
    obtain ⟨p1, out, rest, hstep, hrest, rfl⟩ := emitAll_cons_inv h
    rcases List.mem_append.mp hsend with hmem | hmem
    · obtain ⟨topic, payload, seq, rfl, hpub, hencoded⟩ := pubSubStep_sends hstep hmem
      exact ⟨topic, payload, seq, List.mem_cons_self, List.mem_append_left _ hpub, hencoded⟩
    · obtain ⟨topic, payload, seq, hmem, hpub, hencoded⟩ := ih hrest hmem
      rw [(pubSubStep_keeps hstep).1] at hencoded
      exact ⟨topic, payload, seq, List.mem_cons_of_mem _ hmem, List.mem_append_right _ hpub,
        hencoded⟩

theorem pubSubSteps_delivers {events : List PubSubEvent} {p q : PubSub}
    {acts : List PubSubAction} (h : emitAll (pubSubStep build now) p events = some (q, acts))
    {P : Envelope → Prop}
    (hevents : ∀ e ∈ events, ∀ source payload envelope, e = .inbound source payload →
      EnvelopeCodec.decode build.readEnvelope payload = .ok envelope → P envelope) :
    ∀ sub message, .deliverToApp sub message ∈ acts → P message.envelope := by
  have hout := (emitAll_out (P := fun _ => True)
    (Q := fun a => ∀ sub message, a = .deliverToApp sub message → P message.envelope) ?_ hevents
    trivial h).2
  · exact fun sub message hmem => hout _ hmem sub message rfl
  · intro r e r' out _ he hstep
    refine ⟨trivial, ?_⟩
    rintro a ha sub message rfl
    obtain ⟨source, payload, rfl, hdecode⟩ := pubSubStep_delivers hstep ha
    exact he source payload _ rfl hdecode

end PubSubSteps

end Runtime
end MeshBus
