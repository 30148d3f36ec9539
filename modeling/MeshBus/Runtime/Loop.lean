import MeshBus.Control.Plane
import MeshBus.Forward.Forwarder
import MeshBus.PubSub.Node
import MeshBus.Runtime.Codec

/-!
# Runtime.Loop

One iteration of `run_runtime_loop` of `mb-runtime`: it takes one input, lets the control plane,
the forwarder and the Pub/Sub core handle what the input means to each of them, and executes the
actions they return. `none` is a panic in one of the three.

What leaves the process is a list of `Effect`s. Diagnostics are left out, and so are the answers of
the endpoint: a failed `send` only closes the link, which the transport reports by `Down`.
-/

namespace MeshBus
namespace Runtime

open Control Forward Wire PubSub

inductive LinkEvent where
  | up (link : LinkId) (peer : NodeId)
  | down (link : LinkId)
  | frame (link : LinkId) (frame : WireFrame)
  | sent (link : LinkId) (frameType : FrameType) (channel : Channel) (payloadBytes : Nat)

inductive ForwardInput where
  | outbound (packet : ForwardPacket)
  | outboundMulticast (destinations : List NodeId) (packet : ForwardPacket)

inductive RuntimeTimer where
  | control (timer : ControlTimer)
  | forward (timer : ForwardTimer)
deriving DecidableEq

inductive RuntimeInput where
  | link (event : LinkEvent)
  | forward (input : ForwardInput)
  | pubSub (event : PubSubEvent)
  | timer (timer : RuntimeTimer)

inductive ForwardOutcome where
  | delivered (packet : ForwardPacket)
  | dropped (reason : DropReason) (priority : Priority) (flowId : UInt64) (source : NodeId)
  | backpressure (link : LinkId) (packet : ForwardPacket)

inductive PubSubOutcome where
  | delivered (subId : SubId) (message : DeliveredMessage)
  | published (topic : TopicKey) (seq : UInt64)
  | rejected (reason : PubSubRejectReason)
  | dropped (reason : PubSubDropReason)

/-- What the loop asks of the endpoint, the timers, the store and the application. -/
inductive Effect where
  | send (link : LinkId) (frame : WireFrame)
  | close (link : LinkId)
  | schedule (timer : RuntimeTimer) (due : MonoTime)
  | persist (seq : UInt64)
  | forwardOutcome (outcome : ForwardOutcome)
  | pubSubOutcome (outcome : PubSubOutcome)

/-- What the build fixes: the protobuf readers, and whether debug assertions are checked. -/
structure Build where
  prost : Proto.Decoders
  readEnvelope : Bytes → Option WireEnvelope
  debug : Bool

/-- What one iteration finds outside: the time, the costs configured for peers, and whether the
store takes a sequence number. -/
structure Outside where
  now : MonoTime
  peerCosts : OrdMap NodeId LinkCost
  persists : UInt64 → Bool

structure RuntimeState where
  plane : ControlPlane
  forwarder : Forwarder
  pubsub : PubSub
  peers : OrdMap LinkId NodeId

/-- The locals of an iteration that its later parts read. -/
structure Turn where
  controlEvent : Option ControlEvent
  forwardActions : List ForwardAction
  pubsubActions : List PubSubAction

/-- The `match input`; `close` stands for `endpoint.close(link)` and `continue`. -/
inductive Dispatched where
  | close (link : LinkId)
  | turn (state : RuntimeState) (turn : Turn)

namespace RuntimeState

/-- The state before the first input. -/
def spawn (me : NodeId) (epoch : UInt32) (persistedSeq : UInt64) (policies : TopicPolicies) :
    RuntimeState where
  plane := ControlPlane.newUnsecuredWithSeq me epoch persistedSeq
  forwarder := Forwarder.new me (ControlPlane.newUnsecuredWithSeq me epoch persistedSeq).routes
  pubsub := PubSub.new me policies
  peers := ∅

/-- Events for the forwarder, one after the other. -/
def forward (rt : RuntimeState) (now : MonoTime) (events : List ForwardEvent) :
    Option (RuntimeState × List ForwardAction) := do
  let (forwarder, actions) ← emitAll (fun f e => f.handle now e) rt.forwarder events
  some ({ rt with forwarder := forwarder }, actions)

def dispatchLink (build : Build) (outside : Outside) (rt : RuntimeState) :
    LinkEvent → Option Dispatched
  | .up link peer =>
    match outside.peerCosts[peer]? with
    | none => some (.close link)
    | some cost => do
      let (rt, actions) ← { rt with peers := rt.peers.insert link peer }.forward outside.now
        [.linkCredit link maxPayloadLen, .linkWritable link]
      some (.turn rt ⟨some (.linkUp link peer cost), actions, []⟩)
  | .down link => do
    let (rt, actions) ← { rt with peers := rt.peers.erase link }.forward outside.now
      [.linkDown link]
    some (.turn rt ⟨some (.linkDown link), actions, []⟩)
  | .frame link frame =>
    if frame.frameType = .forward then
      match decodeForwardFrame frame with
      | .error _ => some (.close link)
      | .ok packet => do
        let (rt, actions) ← rt.forward outside.now [.inbound link packet]
        some (.turn rt ⟨none, actions, []⟩)
    else
      match decodeControlFrame build.prost frame with
      | .error _ => some (.close link)
      | .ok frame => some (.turn rt ⟨some (.frame link frame), [], []⟩)
  | .sent link frameType _ payloadBytes =>
    if frameType = .forward then do
      let (rt, actions) ← rt.forward outside.now
        [.linkCredit link payloadBytes, .linkWritable link]
      some (.turn rt ⟨none, actions, []⟩)
    else some (.turn rt ⟨none, [], []⟩)

def dispatch (build : Build) (outside : Outside) (rt : RuntimeState) :
    RuntimeInput → Option Dispatched
  | .timer (.control timer) => some (.turn rt ⟨some (.timer timer), [], []⟩)
  | .timer (.forward timer) => do
    let (rt, actions) ← rt.forward outside.now [.timer timer]
    some (.turn rt ⟨none, actions, []⟩)
  | .forward (.outbound packet) => do
    let (rt, actions) ← rt.forward outside.now [.outbound packet]
    some (.turn rt ⟨none, actions, []⟩)
  | .forward (.outboundMulticast destinations packet) => do
    let (rt, actions) ← rt.forward outside.now [.outboundMulticast destinations packet]
    some (.turn rt ⟨none, actions, []⟩)
  | .pubSub event => do
    let (pubsub, actions) ← rt.pubsub.handle build.readEnvelope build.debug outside.now event
    some (.turn { rt with pubsub := pubsub } ⟨none, [], actions⟩)
  | .link event => rt.dispatchLink build outside event

end RuntimeState

/-- The ad of one selector: no partition and the empty partition look alike. -/
def selectorAd (selector : TopicSelector) : TopicAd where
  topic := selector.name
  partition := selector.partition.getD []
  roles := .subscribe
  headSeq := 0
  tailSeq := 0

/-- The first change of the subscriptions among the actions. -/
def changedSelectors (actions : List PubSubAction) : Option (List TopicSelector) :=
  actions.findSome? fun
    | .localSubscriptionsChanged selectors => some selectors
    | _ => none

/-- The event the control plane handles: a change of the subscriptions takes the place of what the
input meant to it. -/
def Turn.event (turn : Turn) : Option ControlEvent :=
  match changedSelectors turn.pubsubActions with
  | some selectors => some (.localTopicAdsChanged (selectors.map selectorAd))
  | none => turn.controlEvent

/-- One ad of `discovery_from_topic_ads`; `none` is the `expect` on its topic. -/
def discover (subscribers : OrdMap TopicSelector (OrdSet NodeId)) (discovered : DiscoveredTopicAd) :
    Option (OrdMap TopicSelector (OrdSet NodeId)) :=
  if !discovered.ad.roles.contains .subscribe then some subscribers
  else
    let selector :=
      if discovered.ad.partition.isEmpty then TopicSelector.allPartitions discovered.ad.topic
      else (TopicKey.new discovered.ad.topic discovered.ad.partition).map TopicSelector.exact
    match selector with
    | .error _ => none
    | .ok selector =>
      some (subscribers.insert selector
        ((subscribers[selector]?.getD ∅).insert discovered.node))

def discoveryFromTopicAds (ads : List DiscoveredTopicAd) : Option DiscoveryIndex := do
  let subscribers ← ads.foldlM discover ∅
  some (subscribers.toList.foldl (fun index e => index.setSubscribers e.1 e.2.toList) .empty)

/-- The iteration so far: the state, the actions still to be executed, and the effects. -/
structure Progress where
  state : RuntimeState
  forwardActions : List ForwardAction
  pubsubActions : List PubSubAction
  effects : List Effect

/-- `for action in plane.handle(now, event)`. The flag is false when the loop returns because a
sequence number could not be stored. -/
def runControl (build : Build) (outside : Outside) :
    Progress → List ControlAction → Option (Progress × Bool)
  | s, [] => some (s, true)
  | s, .send link frame :: rest =>
    match encodeControlFrame frame with
    | .error _ => runControl build outside s rest
    | .ok wire => runControl build outside { s with effects := s.effects ++ [.send link wire] } rest
  | s, .setTimer timer due :: rest =>
    runControl build outside
      { s with effects := s.effects ++ [.schedule (.control timer) due] } rest
  | s, .publishRoutes routes :: rest => do
    let (rt, actions) ← s.state.forward outside.now [.routesUpdated routes]
    runControl build outside
      { s with state := rt, forwardActions := s.forwardActions ++ actions } rest
  | s, .publishTopicAds ads :: rest => do
    let discovery ← discoveryFromTopicAds ads
    let (pubsub, actions) ←
      s.state.pubsub.handle build.readEnvelope build.debug outside.now (.discoveryUpdated discovery)
    runControl build outside { s with
      state := { s.state with pubsub := pubsub }
      pubsubActions := s.pubsubActions ++ actions } rest
  | s, .persistSeq seq :: rest =>
    if outside.persists seq then
      runControl build outside { s with effects := s.effects ++ [.persist seq] } rest
    else some ({ s with effects := s.effects ++ [.persist seq] }, false)

/-- The packet of a publication; `none` is the `expect` on the conflatable flag. -/
def multicastPacket (source : NodeId) (priority : Priority) (flowId conflateKey : UInt64)
    (conflatable : Bool) (payload : Bytes) : Option ForwardPacket := do
  let flags ←
    if conflatable then ForwardFlags.fromBits ForwardFlags.conflatable else some ForwardFlags.empty
  some
    { header :=
        { packetType := .multicast
          priority := priority
          ttl := 32
          flags := flags
          destination := default
          source := source
          flowId := flowId
          conflateKey := conflateKey }
      multicastDestinations := []
      payload := payload }

/-- One action of `execute_pubsub_actions`: the forward actions it adds, and its effects. -/
def executePubSubAction (now : MonoTime) (f : Forwarder) :
    PubSubAction → Option (Forwarder × List ForwardAction × List Effect)
  | .sendMulticast destinations priority flowId conflateKey conflatable payload => do
    let packet ← multicastPacket f.me priority flowId conflateKey conflatable payload
    let (f, actions) ← f.handle now (.outboundMulticast destinations packet)
    some (f, actions, [])
  | .deliverToApp subId message => some (f, [], [.pubSubOutcome (.delivered subId message)])
  | .localSubscriptionsChanged _ => some (f, [], [])
  | .published topic seq => some (f, [], [.pubSubOutcome (.published topic seq)])
  | .rejected reason => some (f, [], [.pubSubOutcome (.rejected reason)])
  | .dropped reason => some (f, [], [.pubSubOutcome (.dropped reason)])

def executePubSubActions (now : MonoTime) :
    Forwarder → List PubSubAction → Option (Forwarder × List ForwardAction × List Effect)
  | f, [] => some (f, [], [])
  | f, action :: rest => do
    let (f, actions, effects) ← executePubSubAction now f action
    let (f, actions', effects') ← executePubSubActions now f rest
    some (f, actions ++ actions', effects ++ effects')

/-- The `while let Some(action) = pending.pop_front()` of `execute_forward_actions`, for at most
`fuel` actions: a delivery to the Pub/Sub core may add to the end of the queue. -/
def executeForwardActions (build : Build) (now : MonoTime) :
    Nat → RuntimeState → List ForwardAction → Option (RuntimeState × List Effect)
  | _, rt, [] => some (rt, [])
  | 0, _, _ :: _ => none
  | fuel + 1, rt, .send link packet :: pending =>
    match ForwardPacketCodec.encode packet with
    | .error _ => executeForwardActions build now fuel rt pending
    | .ok payload => do
      let frame : WireFrame := ⟨.forward, channelForPriority packet.header.priority, payload⟩
      let (rt, effects) ← executeForwardActions build now fuel rt pending
      some (rt, .send link frame :: effects)
  | fuel + 1, rt, .deliverLocal packet :: pending =>
    if EnvelopeCodec.isEnvelope packet.payload then do
      let (pubsub, actions) ← rt.pubsub.handle build.readEnvelope build.debug now
        (.inbound packet.header.source packet.payload)
      let (f, more, outcomes) ← executePubSubActions now rt.forwarder actions
      let (rt, effects) ← executeForwardActions build now fuel
        { rt with pubsub := pubsub, forwarder := f } (pending ++ more)
      some (rt, outcomes ++ effects)
    else do
      let (rt, effects) ← executeForwardActions build now fuel rt pending
      some (rt, .forwardOutcome (.delivered packet) :: effects)
  | fuel + 1, rt, .drop reason packet :: pending => do
    let (rt, effects) ← executeForwardActions build now fuel rt pending
    some (rt, .forwardOutcome (.dropped reason packet.header.priority packet.header.flowId
      packet.header.source) :: effects)
  | fuel + 1, rt, .backpressure link packet :: pending => do
    let (rt, effects) ← executeForwardActions build now fuel rt pending
    some (rt, .forwardOutcome (.backpressure link packet) :: effects)
  | fuel + 1, rt, .setTimer timer due :: pending => do
    let (rt, effects) ← executeForwardActions build now fuel rt pending
    some (rt, .schedule (.forward timer) due :: effects)

namespace RuntimeState

/-- The plane's part of an iteration. -/
def control (build : Build) (outside : Outside) (rt : RuntimeState) (turn : Turn) :
    Option (Progress × Bool) :=
  match turn.event with
  | none => some (⟨rt, turn.forwardActions, turn.pubsubActions, []⟩, true)
  | some event => do
    let (plane, actions) ← rt.plane.handle outside.now event
    runControl build outside
      ⟨{ rt with plane := plane }, turn.forwardActions, turn.pubsubActions, []⟩ actions

/-- An iteration up to `execute_forward_actions`, with all forward actions it has collected; the
flag is false when the loop returns before it executes them. -/
def collect (build : Build) (outside : Outside) (rt : RuntimeState) (input : RuntimeInput) :
    Option (Progress × Bool) := do
  match ← rt.dispatch build outside input with
  -- `continue`: nothing is left to execute
  | .close link => some (⟨rt, [], [], [.close link]⟩, true)
  | .turn rt turn =>
    let (s, continues) ← rt.control build outside turn
    if !continues then some (s, false)
    else
      let (f, actions, outcomes) ←
        executePubSubActions outside.now s.state.forwarder s.pubsubActions
      some (⟨{ s.state with forwarder := f }, s.forwardActions ++ actions, [],
        s.effects ++ outcomes⟩, true)

/-- One iteration. The flag is false when the loop returns. -/
def iterate (build : Build) (outside : Outside) (rt : RuntimeState) (input : RuntimeInput) :
    Option (RuntimeState × List Effect × Bool) := do
  let (s, continues) ← rt.collect build outside input
  if !continues then some (s.state, s.effects, false)
  else
    let (rt, effects) ← executeForwardActions build outside.now s.forwardActions.length s.state
      s.forwardActions
    some (rt, s.effects ++ effects, true)

/-- The iterations over a list of inputs; the flag is false when the loop has returned. -/
def run (build : Build) : RuntimeState → List (Outside × RuntimeInput) →
    Option (RuntimeState × List Effect × Bool)
  | rt, [] => some (rt, [], true)
  | rt, (outside, input) :: rest => do
    let (rt, effects, continues) ← rt.iterate build outside input
    if !continues then some (rt, effects, false)
    else
      let (rt, more, continues) ← run build rt rest
      some (rt, effects ++ more, continues)

end RuntimeState

/-! ## Executing the actions

What is delivered to the Pub/Sub core makes it deliver, drop or reject, and never send: the queue of
forward actions does not grow, and the forwarder is left alone. -/

theorem executePubSubActions_quiet (now : MonoTime) (f : Forwarder) :
    ∀ {actions : List PubSubAction}, (∀ action ∈ actions,
      ∀ destinations priority flowId conflateKey conflatable encoded,
        action ≠ .sendMulticast destinations priority flowId conflateKey conflatable encoded) →
    ∃ outcomes : List PubSubOutcome, executePubSubActions now f actions =
      some (f, [], outcomes.map Effect.pubSubOutcome) := by
  intro actions
  induction actions with
  | nil => exact fun _ => ⟨[], rfl⟩
  | cons action rest ih =>
    intro h
    obtain ⟨outcomes, hrest⟩ := ih fun a ha => h a (List.mem_cons_of_mem _ ha)
    have hhead : ∃ first : List PubSubOutcome, executePubSubAction now f action =
        some (f, [], first.map Effect.pubSubOutcome) := by
      cases action with
      | sendMulticast => exact absurd rfl (h _ List.mem_cons_self _ _ _ _ _ _)
      | localSubscriptionsChanged selectors => exact ⟨[], rfl⟩
      | deliverToApp subId message => exact ⟨[.delivered subId message], rfl⟩
      | published topic seq => exact ⟨[.published topic seq], rfl⟩
      | rejected reason => exact ⟨[.rejected reason], rfl⟩
      | dropped reason => exact ⟨[.dropped reason], rfl⟩
    obtain ⟨first, hhead⟩ := hhead
    refine ⟨first ++ outcomes, ?_⟩
    simp only [executePubSubActions, bind, hhead, Option.bind_some, hrest, List.map_append,
      List.append_nil]

/-- The frames that go to the endpoint. -/
def frames (effects : List Effect) : List (LinkId × WireFrame) :=
  effects.filterMap fun
    | .send link frame => some (link, frame)
    | _ => none

/-- The frame of a packet that is sent; a packet that does not encode is skipped. -/
def forwardFrame (link : LinkId) (packet : ForwardPacket) : Option (LinkId × WireFrame) :=
  match ForwardPacketCodec.encode packet with
  | .error _ => none
  | .ok payload => some (link, ⟨.forward, channelForPriority packet.header.priority, payload⟩)

/-- The frames of forward actions. -/
def forwardFrames (actions : List ForwardAction) : List (LinkId × WireFrame) :=
  actions.filterMap fun
    | .send link packet => forwardFrame link packet
    | _ => none

@[simp] theorem frames_append (a b : List Effect) : frames (a ++ b) = frames a ++ frames b :=
  List.filterMap_append

@[simp] theorem frames_outcomes (outcomes : List PubSubOutcome) :
    frames (outcomes.map Effect.pubSubOutcome) = [] := by
  simp [frames, List.filterMap_map]

/-- Only the windows of the Pub/Sub core may differ. -/
structure Executed (rt rt' : RuntimeState) : Prop where
  plane : rt'.plane = rt.plane
  forwarder : rt'.forwarder = rt.forwarder
  peers : rt'.peers = rt.peers
  localSubscriptions : rt'.pubsub.localSubscriptions = rt.pubsub.localSubscriptions

theorem Executed.refl (rt : RuntimeState) : Executed rt rt := ⟨rfl, rfl, rfl, rfl⟩

theorem Executed.trans {rt rt1 rt2 : RuntimeState} (h1 : Executed rt rt1) (h2 : Executed rt1 rt2) :
    Executed rt rt2 where
  plane := h2.plane.trans h1.plane
  forwarder := h2.forwarder.trans h1.forwarder
  peers := h2.peers.trans h1.peers
  localSubscriptions := h2.localSubscriptions.trans h1.localSubscriptions

theorem receive_localSubscriptions (readEnvelope : Bytes → Option WireEnvelope) (node : PubSub)
    (source : NodeId) (payload : Bytes) :
    (node.receive readEnvelope source payload).1.localSubscriptions = node.localSubscriptions := by
  obtain ⟨received, hreceive⟩ := receive_state readEnvelope node source payload
  rw [hreceive]

/-- As many rounds as there are actions are enough, and what is sent is what the actions send. -/
theorem executeForwardActions_spec (build : Build) (now : MonoTime) :
    ∀ (pending : List ForwardAction) (rt : RuntimeState), ∃ rt' effects,
      executeForwardActions build now pending.length rt pending = some (rt', effects) ∧
      Executed rt rt' ∧ frames effects = forwardFrames pending := by
  intro pending
  induction pending with
  | nil => exact fun rt => ⟨rt, [], rfl, .refl rt, rfl⟩
  | cons action pending ih =>
    intro rt
    cases action with
    | send link packet =>
      obtain ⟨rt', effects, hrun, hexec, hframes⟩ := ih rt
      cases henc : ForwardPacketCodec.encode packet with
      | error e =>
        refine ⟨rt', effects, ?_, hexec, ?_⟩
        · simp only [List.length_cons, executeForwardActions, henc, hrun]
        · simp only [hframes, forwardFrames, List.filterMap_cons, forwardFrame, henc]
      | ok payload =>
        refine ⟨rt', .send link ⟨.forward, channelForPriority packet.header.priority, payload⟩ ::
          effects, ?_, hexec, ?_⟩
        · simp only [List.length_cons, executeForwardActions, henc, bind, hrun, Option.bind_some]
        · simp only [frames, forwardFrames, List.filterMap_cons, forwardFrame, henc,
            List.cons.injEq, true_and]
          exact hframes
    | deliverLocal packet =>
      by_cases henv : EnvelopeCodec.isEnvelope packet.payload = true
      · generalize hreceive : rt.pubsub.receive build.readEnvelope packet.header.source
          packet.payload = received
        obtain ⟨outcomes, hquiet⟩ := executePubSubActions_quiet now rt.forwarder
          fun a (ha : a ∈ received.2) => receive_sends_nothing (hreceive ▸ ha)
        obtain ⟨rt', effects, hrun, hexec, hframes⟩ := ih { rt with pubsub := received.1 }
        refine ⟨rt', outcomes.map Effect.pubSubOutcome ++ effects, ?_, ?_, ?_⟩
        · simp only [List.length_cons, executeForwardActions, henv, if_true, bind, PubSub.handle,
            hreceive, Option.bind_some, hquiet, List.append_nil, hrun]
        · have hsame : Executed rt { rt with pubsub := received.1 } := by
            refine ⟨rfl, rfl, rfl, ?_⟩
            rw [← hreceive]
            exact receive_localSubscriptions _ _ _ _
          exact hsame.trans hexec
        · rw [frames_append, frames_outcomes, hframes]
          rfl
      · obtain ⟨rt', effects, hrun, hexec, hframes⟩ := ih rt
        refine ⟨rt', .forwardOutcome (.delivered packet) :: effects, ?_, hexec, hframes⟩
        simp only [List.length_cons, executeForwardActions, henv, if_false, bind, hrun,
          Option.bind_some, Bool.false_eq_true]
    | drop reason packet =>
      obtain ⟨rt', effects, hrun, hexec, hframes⟩ := ih rt
      refine ⟨rt', .forwardOutcome (.dropped reason packet.header.priority packet.header.flowId
        packet.header.source) :: effects, ?_, hexec, hframes⟩
      simp only [List.length_cons, executeForwardActions, bind, hrun, Option.bind_some]
    | backpressure link packet =>
      obtain ⟨rt', effects, hrun, hexec, hframes⟩ := ih rt
      refine ⟨rt', .forwardOutcome (.backpressure link packet) :: effects, ?_, hexec, hframes⟩
      simp only [List.length_cons, executeForwardActions, bind, hrun, Option.bind_some]
    | setTimer timer due =>
      obtain ⟨rt', effects, hrun, hexec, hframes⟩ := ih rt
      refine ⟨rt', .schedule (.forward timer) due :: effects, ?_, hexec, hframes⟩
      simp only [List.length_cons, executeForwardActions, bind, hrun, Option.bind_some]

theorem executeForwardActions_executed {build : Build} {now : MonoTime}
    {pending : List ForwardAction} {rt rt' : RuntimeState} {effects : List Effect}
    (h : executeForwardActions build now pending.length rt pending = some (rt', effects)) :
    Executed rt rt' ∧ frames effects = forwardFrames pending := by
  obtain ⟨rt2, effects2, hrun, hspec⟩ := executeForwardActions_spec build now pending rt
  rw [h] at hrun
  cases hrun
  exact hspec

/-! ## What an iteration does

Each core sees a list of events of its own; `Iterated` says which. -/

/-- What an input means to the forwarder and to the control plane; `none` is an input that only
closes its link. -/
def meaning (build : Build) (outside : Outside) :
    RuntimeInput → Option (List ForwardEvent × Option ControlEvent)
  | .timer (.control timer) => some ([], some (.timer timer))
  | .timer (.forward timer) => some ([.timer timer], none)
  | .forward (.outbound packet) => some ([.outbound packet], none)
  | .forward (.outboundMulticast destinations packet) =>
    some ([.outboundMulticast destinations packet], none)
  | .pubSub _ => some ([], none)
  | .link (.up link peer) =>
    outside.peerCosts[peer]?.map fun cost =>
      ([.linkCredit link maxPayloadLen, .linkWritable link], some (.linkUp link peer cost))
  | .link (.down link) => some ([.linkDown link], some (.linkDown link))
  | .link (.frame link frame) =>
    if frame.frameType = .forward then
      match decodeForwardFrame frame with
      | .error _ => none
      | .ok packet => some ([.inbound link packet], none)
    else
      match decodeControlFrame build.prost frame with
      | .error _ => none
      | .ok frame => some ([], some (.frame link frame))
  | .link (.sent link frameType _ payloadBytes) =>
    if frameType = .forward then
      some ([.linkCredit link payloadBytes, .linkWritable link], none)
    else some ([], none)

/-- The events of an input have been handled. -/
structure Dispatch (rt : RuntimeState) (now : MonoTime) (events : List ForwardEvent)
    (meant : Option ControlEvent) (rt' : RuntimeState) (turn : Turn) : Prop where
  plane : rt'.plane = rt.plane
  forwarded : emitAll (fun f e => f.handle now e) rt.forwarder events =
    some (rt'.forwarder, turn.forwardActions)
  event : turn.controlEvent = meant
  /-- A change of the subscriptions never displaces an event. -/
  quiet : meant ≠ none → turn.pubsubActions = []

theorem forward_dispatch {rt rt' : RuntimeState} {now : MonoTime} {events : List ForwardEvent}
    {actions : List ForwardAction} (h : rt.forward now events = some (rt', actions)) :
    emitAll (fun f e => f.handle now e) rt.forwarder events = some (rt'.forwarder, actions) ∧
      rt'.plane = rt.plane ∧ rt'.pubsub = rt.pubsub ∧ rt'.peers = rt.peers := by
  simp only [RuntimeState.forward, bind, Option.bind_eq_some_iff] at h
  obtain ⟨⟨f, acts⟩, hf, heq⟩ := h
  cases heq
  exact ⟨hf, rfl, rfl, rfl⟩

/-- The common shape of an input that is events for the forwarder. -/
theorem dispatch_forward {rt rt0 : RuntimeState} {now : MonoTime} {events : List ForwardEvent}
    {controlEvent : Option ControlEvent} {d : Dispatched} (hplane : rt0.plane = rt.plane)
    (hforwarder : rt0.forwarder = rt.forwarder)
    (h : (do
      let (rt', actions) ← rt0.forward now events
      some (Dispatched.turn rt' ⟨controlEvent, actions, []⟩)) = some d) :
    ∃ rt' turn, d = .turn rt' turn ∧ Dispatch rt now events controlEvent rt' turn := by
  simp only [bind, Option.bind_eq_some_iff] at h
  obtain ⟨⟨rt', actions⟩, hforward, heq⟩ := h
  cases heq
  obtain ⟨hf, hp, -, -⟩ := forward_dispatch hforward
  exact ⟨rt', _, rfl, hp.trans hplane, hforwarder ▸ hf, rfl, fun _ => rfl⟩

theorem dispatch_spec {build : Build} {outside : Outside} {rt : RuntimeState} {input : RuntimeInput}
    {d : Dispatched} (h : rt.dispatch build outside input = some d) :
    match meaning build outside input with
    | none => ∃ link, d = .close link
    | some (events, controlEvent) => ∃ rt' turn, d = .turn rt' turn ∧
        Dispatch rt outside.now events controlEvent rt' turn := by
  have idle : ∀ controlEvent, Dispatch rt outside.now [] controlEvent rt ⟨controlEvent, [], []⟩ :=
    fun controlEvent => ⟨rfl, rfl, rfl, fun _ => rfl⟩
  cases input with
  | timer timer =>
    cases timer with
    | control timer =>
      cases h
      exact ⟨_, _, rfl, idle _⟩
    | forward timer => exact dispatch_forward rfl rfl h
  | forward input =>
    cases input with
    | outbound packet => exact dispatch_forward rfl rfl h
    | outboundMulticast destinations packet => exact dispatch_forward rfl rfl h
  | pubSub event =>
    simp only [RuntimeState.dispatch, bind, Option.bind_eq_some_iff] at h
    obtain ⟨⟨pubsub, actions⟩, -, heq⟩ := h
    cases heq
    exact ⟨_, _, rfl, rfl, rfl, rfl, by simp⟩
  | link event =>
    cases event with
    | up link peer =>
      simp only [RuntimeState.dispatch, RuntimeState.dispatchLink] at h
      cases hcost : outside.peerCosts[peer]? with
      | none =>
        simp only [hcost] at h
        cases h
        simp only [meaning, hcost, Option.map_none]
        exact ⟨link, rfl⟩
      | some cost =>
        simp only [hcost] at h
        simp only [meaning, hcost, Option.map_some]
        refine dispatch_forward ?_ ?_ h
        · rfl
        · rfl
    | down link =>
      simp only [RuntimeState.dispatch, RuntimeState.dispatchLink] at h
      refine dispatch_forward ?_ ?_ h
      · rfl
      · rfl
    | frame link frame =>
      simp only [RuntimeState.dispatch, RuntimeState.dispatchLink] at h
      by_cases htype : frame.frameType = .forward
      · rw [if_pos htype] at h
        simp only [meaning, if_pos htype]
        cases hdec : decodeForwardFrame frame with
        | error e =>
          simp only [hdec] at h
          cases h
          exact ⟨link, rfl⟩
        | ok packet =>
          simp only [hdec] at h
          exact dispatch_forward rfl rfl h
      · rw [if_neg htype] at h
        simp only [meaning, if_neg htype]
        cases hdec : decodeControlFrame build.prost frame with
        | error e =>
          simp only [hdec] at h
          cases h
          exact ⟨link, rfl⟩
        | ok frame' =>
          simp only [hdec] at h
          cases h
          exact ⟨_, _, rfl, idle _⟩
    | sent link frameType channel payloadBytes =>
      simp only [RuntimeState.dispatch, RuntimeState.dispatchLink] at h
      by_cases htype : frameType = .forward
      · rw [if_pos htype] at h
        simp only [meaning, if_pos htype]
        exact dispatch_forward rfl rfl h
      · rw [if_neg htype] at h
        cases h
        simp only [meaning, if_neg htype]
        exact ⟨_, _, rfl, idle _⟩

/-- `publishRoutes` of the plane, as events of the forwarder. -/
def routeEvents (actions : List ControlAction) : List ForwardEvent :=
  actions.filterMap fun
    | .publishRoutes routes => some (.routesUpdated routes)
    | _ => none

/-- The loop over the actions of the plane: the forwarder gets the route tables, up to where the
loop stops, and the subscriptions stay. -/
theorem runControl_spec {build : Build} {outside : Outside} : ∀ {actions : List ControlAction}
    {s s' : Progress} {continues : Bool},
    runControl build outside s actions = some (s', continues) →
    ∃ done : List ControlAction, done <+: actions ∧ (continues = true → done = actions) ∧
      (∃ new, emitAll (fun f e => f.handle outside.now e) s.state.forwarder (routeEvents done) =
        some (s'.state.forwarder, new) ∧ s'.forwardActions = s.forwardActions ++ new) ∧
      s'.state.plane = s.state.plane ∧
      s'.state.pubsub.localSubscriptions = s.state.pubsub.localSubscriptions ∧
      s'.pubsubActions = s.pubsubActions := by
  intro actions
  induction actions with
  | nil =>
    intro s s' continues h
    cases h
    exact ⟨[], List.prefix_refl _, fun _ => rfl, ⟨[], rfl, by simp⟩, rfl, rfl, rfl⟩
  | cons action actions ih =>
    intro s s' continues h
    -- an action that the forwarder does not see
    have skip : ∀ {s1 : Progress}, runControl build outside s1 actions = some (s', continues) →
        s1.state.forwarder = s.state.forwarder → s1.forwardActions = s.forwardActions →
        s1.state.plane = s.state.plane →
        s1.state.pubsub.localSubscriptions = s.state.pubsub.localSubscriptions →
        s1.pubsubActions = s.pubsubActions →
        routeEvents [action] = [] → ∃ done : List ControlAction, done <+: action :: actions ∧
          (continues = true → done = action :: actions) ∧
          (∃ new, emitAll (fun f e => f.handle outside.now e) s.state.forwarder
            (routeEvents done) = some (s'.state.forwarder, new) ∧
            s'.forwardActions = s.forwardActions ++ new) ∧
          s'.state.plane = s.state.plane ∧
          s'.state.pubsub.localSubscriptions = s.state.pubsub.localSubscriptions ∧
          s'.pubsubActions = s.pubsubActions := by
      intro s1 hrun hf hfa hp hs hpa hnone
      obtain ⟨done, hpre, hall, ⟨new, hnew, happ⟩, hplane, hsubs, hacts⟩ := ih hrun
      refine ⟨action :: done, (List.prefix_cons_inj _).mpr hpre, fun hc => by rw [hall hc],
        ⟨new, ?_, hfa ▸ happ⟩, hplane.trans hp, hsubs.trans hs, hacts.trans hpa⟩
      have hcons : routeEvents (action :: done) = routeEvents [action] ++ routeEvents done := by
        rw [← List.singleton_append]
        exact List.filterMap_append
      rw [hcons, hnone, List.nil_append, ← hf]
      exact hnew
    cases action with
    | send link frame =>
      simp only [runControl] at h
      split at h
      · exact skip h rfl rfl rfl rfl rfl rfl
      · exact skip h rfl rfl rfl rfl rfl rfl
    | setTimer timer due =>
      simp only [runControl] at h
      exact skip h rfl rfl rfl rfl rfl rfl
    | publishRoutes routes =>
      simp only [runControl, bind, Option.bind_eq_some_iff] at h
      obtain ⟨⟨rt, acts⟩, hforward, hrun⟩ := h
      obtain ⟨hf, hp, hs, -⟩ := forward_dispatch hforward
      obtain ⟨done, hpre, hall, ⟨new, hnew, happ⟩, hplane, hsubs, hacts⟩ := ih hrun
      refine ⟨.publishRoutes routes :: done, (List.prefix_cons_inj _).mpr hpre,
        fun hc => by rw [hall hc], ⟨acts ++ new, ?_, ?_⟩, hplane.trans hp, ?_, hacts⟩
      · obtain ⟨f1, out, rest, hstep, hnil, rfl⟩ := emitAll_cons_inv hf
        cases hnil
        rw [List.append_nil]
        exact emitAll_cons_some hstep hnew
      · rw [happ, List.append_assoc]
      · rw [hsubs]
        simp only [hs]
    | publishTopicAds ads =>
      simp only [runControl, bind, Option.bind_eq_some_iff] at h
      obtain ⟨discovery, -, ⟨pubsub, acts⟩, hhandle, hrun⟩ := h
      cases hhandle
      exact skip hrun rfl rfl rfl rfl (List.append_nil _) rfl
    | persistSeq seq =>
      simp only [runControl] at h
      split at h
      · exact skip h rfl rfl rfl rfl rfl rfl
      · cases h
        exact ⟨[], List.nil_prefix, by simp, ⟨[], rfl, by simp⟩, rfl, rfl, rfl⟩

/-- The multicasts of Pub/Sub actions reach the forwarder as events. -/
theorem executePubSubActions_spec {now : MonoTime} : ∀ {actions : List PubSubAction}
    {f f' : Forwarder} {out : List ForwardAction} {effects : List Effect},
    executePubSubActions now f actions = some (f', out, effects) →
    frames effects = [] ∧ ∃ events : List ForwardEvent,
      (∀ e ∈ events, ∃ destinations packet, e = .outboundMulticast destinations packet) ∧
      emitAll (fun f e => f.handle now e) f events = some (f', out) := by
  intro actions
  induction actions with
  | nil =>
    intro f f' out effects h
    cases h
    exact ⟨rfl, [], by simp, rfl⟩
  | cons action rest ih =>
    intro f f' out effects h
    simp only [executePubSubActions, bind, Option.bind_eq_some_iff] at h
    obtain ⟨⟨f1, out1, effects1⟩, hhead, ⟨f2, out2, effects2⟩, hrest, heq⟩ := h
    cases heq
    obtain ⟨hframes, events, hkind, hrun⟩ := ih hrest
    cases action with
    | sendMulticast destinations priority flowId conflateKey conflatable payload =>
      simp only [executePubSubAction, bind, Option.bind_eq_some_iff] at hhead
      obtain ⟨packet, -, ⟨f3, out3⟩, hstep, heq⟩ := hhead
      cases heq
      refine ⟨by rw [frames_append, hframes]; rfl, .outboundMulticast destinations packet :: events,
        ?_, emitAll_cons_some hstep hrun⟩
      intro e he
      rcases List.mem_cons.mp he with rfl | he
      · exact ⟨_, _, rfl⟩
      · exact hkind e he
    | deliverToApp | localSubscriptionsChanged | published | rejected | dropped =>
      cases hhead
      exact ⟨by rw [frames_append, hframes]; rfl, events, hkind, hrun⟩

/-- What an iteration that does not close a link does to the control plane and the forwarder. -/
structure Iterated (now : MonoTime) (rt : RuntimeState) (events : List ForwardEvent)
    (controlEvent : Option ControlEvent) (rt' : RuntimeState) (actions : List ForwardAction) :
    Prop where
  /-- The forwarder handles the events of the input, then the route tables of the plane, then the
  multicasts of the Pub/Sub core. -/
  forwarded : ∃ planeActions done multicasts,
    emitAll (fun f e => f.handle now e) rt.forwarder
      (events ++ (routeEvents done ++ multicasts)) = some (rt'.forwarder, actions) ∧
    (∀ e ∈ multicasts, ∃ destinations packet, e = .outboundMulticast destinations packet) ∧
    done <+: planeActions ∧
    (rt'.plane = rt.plane ∧ planeActions = [] ∧ controlEvent = none ∨
      ∃ event, rt.plane.handle now event = some (rt'.plane, planeActions) ∧
        (controlEvent = some event ∨
          controlEvent = none ∧ ∃ ads, event = .localTopicAdsChanged ads))

theorem Turn.event_of_quiet {turn : Turn} (h : turn.pubsubActions = []) :
    turn.event = turn.controlEvent := by
  unfold Turn.event
  rw [h]
  rfl

theorem encodeControlFrame_type {frame : ControlFrame} {wire : WireFrame}
    (h : encodeControlFrame frame = .ok wire) : wire.frameType ≠ .forward := by
  cases frame with
  | lsa message =>
    simp only [encodeControlFrame, bind, Except.bind] at h
    repeat' split at h
    all_goals cases h
    intro hforward
    cases hforward
  | digest entries =>
    simp only [encodeControlFrame, bind, Except.bind] at h
    split at h
    all_goals cases h
    intro hforward
    cases hforward
  | digestReq origins =>
    simp only [encodeControlFrame, bind, Except.bind] at h
    split at h
    all_goals cases h
    intro hforward
    cases hforward

/-- The loop over the actions of the plane sends control frames only. -/
theorem runControl_frames {build : Build} {outside : Outside} : ∀ {actions : List ControlAction}
    {s s' : Progress} {continues : Bool},
    runControl build outside s actions = some (s', continues) →
    (∀ x ∈ frames s.effects, x.2.frameType ≠ .forward) →
    ∀ x ∈ frames s'.effects, x.2.frameType ≠ .forward := by
  intro actions
  induction actions with
  | nil =>
    intro s s' continues h hs
    cases h
    exact hs
  | cons action actions ih =>
    intro s s' continues h hs
    have quiet : ∀ {effect : Effect}, frames [effect] = [] →
        ∀ x ∈ frames (s.effects ++ [effect]), x.2.frameType ≠ .forward := by
      intro effect heffect
      rw [frames_append, heffect, List.append_nil]
      exact hs
    cases action with
    | send link frame =>
      simp only [runControl] at h
      split at h
      · exact ih h hs
      · rename_i wire hwire
        refine ih h ?_
        rw [frames_append]
        intro x hx
        rcases List.mem_append.mp hx with hx | hx
        · exact hs x hx
        · rw [List.mem_singleton.mp hx]
          exact encodeControlFrame_type hwire
    | setTimer timer due => exact ih h (quiet rfl)
    | publishRoutes routes =>
      simp only [runControl, bind, Option.bind_eq_some_iff] at h
      obtain ⟨⟨rt, acts⟩, -, hrun⟩ := h
      exact ih hrun hs
    | publishTopicAds ads =>
      simp only [runControl, bind, Option.bind_eq_some_iff] at h
      obtain ⟨discovery, -, ⟨pubsub, acts⟩, -, hrun⟩ := h
      exact ih hrun hs
    | persistSeq seq =>
      simp only [runControl] at h
      split at h
      · exact ih h (quiet rfl)
      · cases h
        exact quiet rfl

/-- What the two cores have done before the forward actions are executed. -/
theorem collect_spec {build : Build} {outside : Outside} {rt : RuntimeState}
    {input : RuntimeInput} {s : Progress} {continues : Bool}
    (h : rt.collect build outside input = some (s, continues)) :
    (match meaning build outside input with
    | none => s.state = rt ∧ s.forwardActions = []
    | some (events, controlEvent) =>
      Iterated outside.now rt events controlEvent s.state s.forwardActions) ∧
    ∀ x ∈ frames s.effects, x.2.frameType ≠ .forward := by
  simp only [RuntimeState.collect, bind, Option.bind_eq_some_iff] at h
  obtain ⟨d, hd, h⟩ := h
  have hspec := dispatch_spec hd
  cases hm : meaning build outside input with
  | none =>
    rw [hm] at hspec
    obtain ⟨link, rfl⟩ := hspec
    cases h
    exact ⟨⟨rfl, rfl⟩, by simp [frames]⟩
  | some m =>
    obtain ⟨events, controlEvent⟩ := m
    rw [hm] at hspec
    obtain ⟨rt1, turn, rfl, hdisp⟩ := hspec
    simp only [Option.bind_eq_some_iff] at h
    obtain ⟨⟨s1, flag⟩, hcontrol, h⟩ := h
    -- the plane's part: the forwarder of `s1`, and how the plane got there
    obtain ⟨planeActions, done, new, hpre, hrouted, hacts, hplane, hframes⟩ :
        ∃ planeActions done new, done <+: planeActions ∧
        emitAll (fun f e => f.handle outside.now e) rt1.forwarder (routeEvents done) =
          some (s1.state.forwarder, new) ∧
        s1.forwardActions = turn.forwardActions ++ new ∧
        (s1.state.plane = rt.plane ∧ planeActions = [] ∧ controlEvent = none ∨
          ∃ event, rt.plane.handle outside.now event = some (s1.state.plane, planeActions) ∧
            (controlEvent = some event ∨
              controlEvent = none ∧ ∃ ads, event = .localTopicAdsChanged ads)) ∧
        ∀ x ∈ frames s1.effects, x.2.frameType ≠ .forward := by
      unfold RuntimeState.control at hcontrol
      cases hevent : turn.event with
      | none =>
        simp only [hevent] at hcontrol
        cases hcontrol
        refine ⟨[], [], [], List.prefix_refl _, rfl, by simp, .inl ⟨hdisp.plane, rfl, ?_⟩,
          by simp [frames]⟩
        by_contra hne
        rw [Turn.event_of_quiet (hdisp.quiet hne), hdisp.event] at hevent
        exact hne hevent
      | some event =>
        simp only [hevent, bind, Option.bind_eq_some_iff] at hcontrol
        obtain ⟨⟨plane, planeActions⟩, hhandle, hrun⟩ := hcontrol
        obtain ⟨done, hpre, -, ⟨new, hnew, happ⟩, hpl, -, -⟩ := runControl_spec hrun
        refine ⟨planeActions, done, new, hpre, hnew, happ, .inr ⟨event, ?_, ?_⟩,
          runControl_frames hrun (by simp [frames])⟩
        · rw [hpl, ← hdisp.plane]
          exact hhandle
        · by_cases hne : controlEvent = none
          · refine .inr ⟨hne, ?_⟩
            unfold Turn.event at hevent
            split at hevent
            · exact ⟨_, (Option.some.inj hevent).symm⟩
            · rw [hdisp.event, hne] at hevent
              cases hevent
          · rw [Turn.event_of_quiet (hdisp.quiet hne), hdisp.event] at hevent
            exact .inl hevent
    split at h
    · cases h
      refine ⟨⟨planeActions, done, [], ?_, by simp, hpre, hplane⟩, hframes⟩
      rw [List.append_nil, hacts]
      exact emitAll_append_some hdisp.forwarded hrouted
    · simp only [Option.bind_eq_some_iff] at h
      obtain ⟨⟨f, actions, outcomes⟩, hpubsub, heq⟩ := h
      obtain ⟨hquiet, multicasts, hkind, hrun⟩ := executePubSubActions_spec hpubsub
      cases heq
      refine ⟨⟨planeActions, done, multicasts, ?_, hkind, hpre, hplane⟩, ?_⟩
      · rw [hacts, List.append_assoc]
        exact emitAll_append_some hdisp.forwarded (emitAll_append_some hrouted hrun)
      · rw [frames_append, hquiet, List.append_nil]
        exact hframes

/-- An iteration that goes on executes the actions it has collected, and they are all. -/
theorem iterate_collect {build : Build} {outside : Outside} {rt rt' : RuntimeState}
    {input : RuntimeInput} {effects : List Effect}
    (h : rt.iterate build outside input = some (rt', effects, true)) :
    ∃ s, rt.collect build outside input = some (s, true) ∧ Executed s.state rt' ∧
      frames effects = frames s.effects ++ forwardFrames s.forwardActions := by
  simp only [RuntimeState.iterate, bind, Option.bind_eq_some_iff] at h
  obtain ⟨⟨s, flag⟩, hs, h⟩ := h
  cases flag with
  | false => cases h
  | true =>
    obtain ⟨⟨rt2, effects2⟩, hexec, heq⟩ := Option.bind_eq_some_iff.mp h
    cases heq
    obtain ⟨hsame, hframes⟩ := executeForwardActions_executed hexec
    exact ⟨s, hs, hsame, by rw [frames_append, hframes]⟩

/-- An event of the application for the Pub/Sub core. -/
theorem iterate_pubSub {build : Build} {outside : Outside} {rt rt' : RuntimeState}
    {event : PubSubEvent} {effects : List Effect} {continues : Bool}
    (h : rt.iterate build outside (.pubSub event) = some (rt', effects, continues)) :
    ∃ pubsub actions,
      rt.pubsub.handle build.readEnvelope build.debug outside.now event = some (pubsub, actions) ∧
      rt'.pubsub.localSubscriptions = pubsub.localSubscriptions ∧
      match changedSelectors actions with
      | none => rt'.plane = rt.plane
      | some selectors => ∃ planeActions, rt.plane.handle outside.now
          (.localTopicAdsChanged (selectors.map selectorAd)) = some (rt'.plane, planeActions) := by
  simp only [RuntimeState.iterate, RuntimeState.collect, RuntimeState.dispatch, bind,
    Option.bind_eq_some_iff] at h
  obtain ⟨⟨s1, flag1⟩, ⟨d, ⟨⟨pubsub, actions⟩, hhandle, heq⟩, hs1⟩, h⟩ := h
  cases heq
  simp only [Option.bind_eq_some_iff] at hs1
  obtain ⟨⟨s, flag⟩, hcontrol, hs1⟩ := hs1
  -- the rest of the iteration keeps the plane and the subscriptions
  have hrest : rt'.plane = s.state.plane ∧
      rt'.pubsub.localSubscriptions = s.state.pubsub.localSubscriptions := by
    split at hs1
    · cases hs1
      cases h
      exact ⟨rfl, rfl⟩
    · obtain ⟨⟨f, forwardActions, outcomes⟩, -, heq⟩ := Option.bind_eq_some_iff.mp hs1
      cases heq
      obtain ⟨⟨rt2, effects2⟩, hexec, heq⟩ := Option.bind_eq_some_iff.mp h
      cases heq
      obtain ⟨hsame, -⟩ := executeForwardActions_executed hexec
      exact ⟨hsame.plane, hsame.localSubscriptions⟩
  refine ⟨pubsub, actions, hhandle, ?_⟩
  rw [hrest.1, hrest.2]
  unfold RuntimeState.control Turn.event at hcontrol
  cases hsel : changedSelectors actions with
  | none =>
    simp only [hsel] at hcontrol
    cases hcontrol
    exact ⟨rfl, rfl⟩
  | some selectors =>
    simp only [hsel, bind, Option.bind_eq_some_iff] at hcontrol
    obtain ⟨⟨plane, planeActions⟩, hplane, hrun⟩ := hcontrol
    obtain ⟨-, -, -, -, hpl, hsubs, -⟩ := runControl_spec hrun
    exact ⟨hsubs, planeActions, hpl ▸ hplane⟩

end Runtime
end MeshBus
