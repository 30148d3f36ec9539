import MeshBus.Control.Publications
import MeshBus.Forward.Expiry
import MeshBus.Runtime.Loop

/-!
# Runtime.Iteration

What one iteration of the loop does, core by core. Each of the three cores sees a list of events of
its own, the forwarder and the Pub/Sub core possibly several (`Turned`):

* the forwarder sees what the input means to it, the route tables the plane publishes and the
  multicasts of the Pub/Sub core;
* the Pub/Sub core sees the input, the discoveries the plane publishes and the envelopes that the
  forwarder delivers;
* what leaves the process is what these actions say: frames, timers and outcomes.
-/

namespace MeshBus
namespace Runtime

open Control Forward Wire PubSub

variable {build : Build} {outside : Outside} {input : RuntimeInput}

/-- The timers that effects schedule, in order. -/
def schedules (effects : List Effect) : List (RuntimeTimer × MonoTime) :=
  effects.filterMap fun
    | .schedule timer due => some (timer, due)
    | _ => none

@[simp] theorem schedules_append (a b : List Effect) :
    schedules (a ++ b) = schedules a ++ schedules b :=
  List.filterMap_append

/-- Timers of the two cores as timers of the runtime. -/
def ofControl (x : ControlTimer × MonoTime) : RuntimeTimer × MonoTime := (.control x.1, x.2)

def ofForward (x : ForwardTimer × MonoTime) : RuntimeTimer × MonoTime := (.forward x.1, x.2)

/-! ## What is scheduled, and what the Pub/Sub core does -/

/-- The outcomes that go to the application, in order. -/
def outcomes (effects : List Effect) : List PubSubOutcome :=
  effects.filterMap fun
    | .pubSubOutcome outcome => some outcome
    | _ => none

@[simp] theorem outcomes_append (a b : List Effect) :
    outcomes (a ++ b) = outcomes a ++ outcomes b :=
  List.filterMap_append

def outcomeOf : PubSubAction → Option PubSubOutcome
  | .deliverToApp subId message => some (.delivered subId message)
  | .published topic seq => some (.published topic seq)
  | .rejected reason => some (.rejected reason)
  | .dropped reason => some (.dropped reason)
  | .sendMulticast .. => none
  | .localSubscriptionsChanged _ => none

/-- The event that a multicast of the Pub/Sub core is to the forwarder of node `me`. -/
def multicastOf (me : NodeId) : PubSubAction → Option ForwardEvent
  | .sendMulticast destinations priority flowId conflateKey conflatable payload =>
    (multicastPacket me priority flowId conflateKey conflatable payload).map
      (.outboundMulticast destinations)
  | _ => none

/-- The event that a delivered packet is to the Pub/Sub core. -/
def inboundOf : ForwardAction → Option PubSubEvent
  | .deliverLocal packet =>
    if EnvelopeCodec.isEnvelope packet.payload then
      some (.inbound packet.header.source packet.payload)
    else none
  | _ => none

def RuntimeInput.pubSubEvent? : RuntimeInput → Option PubSubEvent
  | .pubSub event => some event
  | _ => none

/-- A step of the Pub/Sub core. -/
def pubSubStep (build : Build) (now : MonoTime) (p : PubSub) (e : PubSubEvent) :
    Option (PubSub × List PubSubAction) :=
  p.handle build.readEnvelope build.debug now e

theorem handleAll_me {now : MonoTime} {events : List ForwardEvent} {f f' : Forwarder}
    {acts : List ForwardAction}
    (h : emitAll (fun f e => f.handle now e) f events = some (f', acts)) : f'.me = f.me :=
  emitAll_inv (P := fun g => g.me = f.me)
    (fun _ _ _ _ hg hstep => (Forwarder.handle_handled hstep).me.trans hg) rfl h

theorem executePubSubActions_runs {now : MonoTime} : ∀ {actions : List PubSubAction}
    {f f' : Forwarder} {out : List ForwardAction} {effects : List Effect},
    executePubSubActions now f actions = some (f', out, effects) →
    outcomes effects = actions.filterMap outcomeOf ∧ schedules effects = [] ∧
      emitAll (fun f e => f.handle now e) f (actions.filterMap (multicastOf f.me)) =
        some (f', out) := by
  intro actions
  induction actions with
  | nil =>
    intro f f' out effects h
    cases h
    exact ⟨rfl, rfl, rfl⟩
  | cons action rest ih =>
    intro f f' out effects h
    simp only [executePubSubActions, bind, Option.bind_eq_some_iff] at h
    obtain ⟨⟨f1, out1, effects1⟩, hhead, ⟨f2, out2, effects2⟩, hrest, heq⟩ := h
    cases heq
    obtain ⟨houtcomes, hsilent, hrun⟩ := ih hrest
    rw [outcomes_append, houtcomes, schedules_append, hsilent, List.append_nil]
    cases action with
    | sendMulticast destinations priority flowId conflateKey conflatable payload =>
      simp only [executePubSubAction, bind, Option.bind_eq_some_iff] at hhead
      obtain ⟨packet, hpacket, ⟨f3, out3⟩, hstep, heq⟩ := hhead
      cases heq
      refine ⟨rfl, rfl, ?_⟩
      rw [(Forwarder.handle_handled hstep).me] at hrun
      rw [List.filterMap_cons, multicastOf, hpacket, Option.map_some]
      exact emitAll_cons_some hstep hrun
    | deliverToApp | localSubscriptionsChanged | published | rejected | dropped =>
      cases hhead
      exact ⟨rfl, rfl, hrun⟩

/-- What an inbound envelope makes the Pub/Sub core do is no event for the forwarder. -/
theorem receive_no_multicast {readEnvelope : Bytes → Option WireEnvelope} {p q : PubSub}
    {source : NodeId} {payload : Bytes} {acts : List PubSubAction} (me : NodeId)
    (h : p.receive readEnvelope source payload = (q, acts)) :
    acts.filterMap (multicastOf me) = [] := by
  refine List.filterMap_eq_nil_iff.mpr fun action haction => ?_
  have hmem : action ∈ (p.receive readEnvelope source payload).2 := by
    rw [h]
    exact haction
  cases action with
  | sendMulticast => exact absurd rfl (receive_sends_nothing hmem _ _ _ _ _ _)
  | deliverToApp | localSubscriptionsChanged | published | rejected | dropped => rfl

/-- The packets delivered reach the Pub/Sub core one after the other. -/
theorem executeForwardActions_runs {now : MonoTime} (me : NodeId) :
    ∀ {fuel : Nat} {pending : List ForwardAction} {rt rt' : RuntimeState} {effects : List Effect},
      executeForwardActions build now fuel rt pending = some (rt', effects) →
      ∃ acts, emitAll (pubSubStep build now) rt.pubsub (pending.filterMap inboundOf) =
          some (rt'.pubsub, acts) ∧
        outcomes effects = acts.filterMap outcomeOf ∧ acts.filterMap (multicastOf me) = [] ∧
        schedules effects = (Forward.timers pending).map ofForward := by
  intro fuel
  induction fuel with
  | zero =>
    intro pending rt rt' effects h
    cases pending with
    | nil =>
      cases h
      exact ⟨[], rfl, rfl, rfl, rfl⟩
    | cons action pending => cases h
  | succ fuel ih =>
    intro pending rt rt' effects h
    cases pending with
    | nil =>
      cases h
      exact ⟨[], rfl, rfl, rfl, rfl⟩
    | cons action pending =>
      cases action with
      | send link packet =>
        simp only [executeForwardActions] at h
        split at h
        · have hih := ih h
          exact hih
        · simp only [bind, Option.bind_eq_some_iff] at h
          obtain ⟨⟨rt1, effects1⟩, hrest, heq⟩ := h
          cases heq
          have hih := ih hrest
          exact hih
      | deliverLocal packet =>
        simp only [executeForwardActions] at h
        split at h
        · rename_i henvelope
          simp only [bind, Option.bind_eq_some_iff] at h
          obtain ⟨⟨pubsub, actions⟩, hhandle, ⟨f, more, effects0⟩, hmore, ⟨rt1, effects1⟩, hrest,
            heq⟩ := h
          cases heq
          obtain ⟨houtcomes, hsilent, hnone⟩ := executePubSubActions_runs hmore
          have hquiet : ∀ me, actions.filterMap (multicastOf me) = [] :=
            fun me => receive_no_multicast me (Option.some.inj hhandle)
          rw [hquiet] at hnone
          cases hnone
          rw [List.append_nil] at hrest
          obtain ⟨acts, hrun, houtcomes', hquiet', hscheduled⟩ := ih hrest
          refine ⟨actions ++ acts, ?_, ?_, ?_, ?_⟩
          · simp only [List.filterMap_cons, inboundOf, henvelope, if_true]
            exact emitAll_cons_some hhandle hrun
          · rw [outcomes_append, houtcomes, houtcomes', List.filterMap_append]
          · rw [List.filterMap_append, hquiet, hquiet', List.append_nil]
          · rw [schedules_append, hsilent, hscheduled]
            rfl
        · rename_i henvelope
          simp only [bind, Option.bind_eq_some_iff] at h
          obtain ⟨⟨rt1, effects1⟩, hrest, heq⟩ := h
          cases heq
          have hih := ih hrest
          simp only [List.filterMap_cons, inboundOf, henvelope, Bool.false_eq_true, if_false]
          exact hih
      | drop reason packet | backpressure link packet =>
        simp only [executeForwardActions, bind, Option.bind_eq_some_iff] at h
        obtain ⟨⟨rt1, effects1⟩, hrest, heq⟩ := h
        cases heq
        have hih := ih hrest
        exact hih
      | setTimer timer due =>
        simp only [executeForwardActions, bind, Option.bind_eq_some_iff] at h
        obtain ⟨⟨rt1, effects1⟩, hrest, heq⟩ := h
        cases heq
        obtain ⟨acts, hrun, houtcomes, hquiet, hscheduled⟩ := ih hrest
        exact ⟨acts, hrun, houtcomes, hquiet, congrArg (List.cons _) hscheduled⟩

/-- Carrying out the actions of the plane reports no outcome; and if the loop goes on, the
discoveries have reached the Pub/Sub core, which does nothing more, and the timers are scheduled. -/
theorem runControl_runs : ∀ {actions : List ControlAction}
    {s s' : Progress} {continues : Bool},
    runControl build outside s actions = some (s', continues) →
    outcomes s'.effects = outcomes s.effects ∧ (continues = true →
      (∃ discoveries, (publishedAds actions).mapM discoveryFromTopicAds = some discoveries ∧
        emitAll (pubSubStep build outside.now) s.state.pubsub
          (discoveries.map PubSubEvent.discoveryUpdated) = some (s'.state.pubsub, [])) ∧
      schedules s'.effects = schedules s.effects ++ (Control.timers actions).map ofControl) := by
  intro actions
  induction actions with
  | nil =>
    intro s s' continues h
    cases h
    exact ⟨rfl, fun _ => ⟨⟨[], rfl, rfl⟩, (List.append_nil _).symm⟩⟩
  | cons action actions ih =>
    intro s s' continues h
    cases action with
    | send link frame =>
      simp only [runControl] at h
      split at h
      · exact ih h
      · have hih := ih h
        simp only [outcomes, schedules, List.filterMap_append, List.filterMap_cons,
          List.filterMap_nil, List.append_nil] at hih ⊢
        exact hih
    | setTimer timer due =>
      have hih := ih h
      rw [schedules_append, List.append_assoc, outcomes_append] at hih
      exact ⟨hih.1.trans (List.append_nil _), hih.2⟩
    | publishRoutes routes =>
      simp only [runControl, bind, Option.bind_eq_some_iff] at h
      obtain ⟨⟨rt, acts⟩, hforward, hrun⟩ := h
      obtain ⟨-, -, hs, -⟩ := forward_dispatch hforward
      have hih := ih hrun
      dsimp only at hih
      rw [hs] at hih
      exact hih
    | publishTopicAds ads =>
      simp only [runControl, bind, Option.bind_eq_some_iff] at h
      obtain ⟨discovery, hdiscovery, ⟨pubsub, acts⟩, hhandle, hrun⟩ := h
      obtain ⟨hout, hrest⟩ := ih hrun
      refine ⟨hout, fun hgoes => ?_⟩
      obtain ⟨⟨discoveries, hd, hrun'⟩, hscheduled⟩ := hrest hgoes
      refine ⟨⟨discovery :: discoveries, ?_, ?_⟩, hscheduled⟩
      · change (ads :: publishedAds actions).mapM discoveryFromTopicAds = _
        simp only [List.mapM_cons, hdiscovery, hd]
        rfl
      · cases hhandle
        exact emitAll_cons_some (show pubSubStep build outside.now s.state.pubsub
          (.discoveryUpdated discovery) = some (_, []) from rfl) hrun'
    | persistSeq seq =>
      simp only [runControl] at h
      split at h
      · have hih := ih h
        simp only [outcomes, schedules, List.filterMap_append, List.filterMap_cons,
          List.filterMap_nil, List.append_nil] at hih ⊢
        exact hih
      · cases h
        rw [outcomes_append]
        exact ⟨List.append_nil _, by simp⟩

/-- A turn in which the forwarder has taken events. -/
def RuntimeState.forwarded (rt : RuntimeState) (now : MonoTime) (events : List ForwardEvent)
    (controlEvent : Option ControlEvent) : Option Dispatched := do
  let (rt', actions) ← rt.forward now events
  some (.turn rt' ⟨controlEvent, actions, []⟩)

theorem dispatch_runs {rt rt' : RuntimeState} {turn : Turn}
    (h : rt.dispatch build outside input = some (.turn rt' turn)) :
    emitAll (pubSubStep build outside.now) rt.pubsub input.pubSubEvent?.toList =
      some (rt'.pubsub, turn.pubsubActions) := by
  -- events for the forwarder leave the Pub/Sub core alone
  have forwards : ∀ {rt0 : RuntimeState} {events : List ForwardEvent}
      {controlEvent : Option ControlEvent}, rt0.pubsub = rt.pubsub →
      rt0.forwarded outside.now events controlEvent = some (.turn rt' turn) →
      emitAll (pubSubStep build outside.now) rt.pubsub [] =
        some (rt'.pubsub, turn.pubsubActions) := by
    intro rt0 events controlEvent hsame h
    simp only [RuntimeState.forwarded, bind, Option.bind_eq_some_iff] at h
    obtain ⟨⟨rt1, actions⟩, hforward, heq⟩ := h
    cases heq
    obtain ⟨-, -, hpubsub, -⟩ := forward_dispatch hforward
    rw [hpubsub, hsame]
    rfl
  cases input with
  | timer timer =>
    cases timer with
    | control timer =>
      cases h
      rfl
    | forward timer => exact forwards rfl h
  | forward input =>
    cases input with
    | outbound packet => exact forwards rfl h
    | outboundMulticast destinations packet => exact forwards rfl h
  | pubSub event =>
    simp only [RuntimeState.dispatch, bind, Option.bind_eq_some_iff] at h
    obtain ⟨⟨pubsub, actions⟩, hhandle, heq⟩ := h
    cases heq
    have hone : emitAll (pubSubStep build outside.now) rt.pubsub [event] =
        some (pubsub, actions ++ []) := emitAll_cons_some hhandle (emitAll_nil pubsub)
    rwa [List.append_nil] at hone
  | link event =>
    cases event with
    | up link peer =>
      simp only [RuntimeState.dispatch, RuntimeState.dispatchLink] at h
      split at h
      · cases h
      · refine forwards ?_ h
        rfl
    | down link =>
      simp only [RuntimeState.dispatch, RuntimeState.dispatchLink] at h
      refine forwards ?_ h
      rfl
    | frame link frame =>
      simp only [RuntimeState.dispatch, RuntimeState.dispatchLink] at h
      split at h
      · split at h
        · cases h
        · exact forwards rfl h
      · split at h
        · cases h
        · cases h
          rfl
    | sent link frameType channel payloadBytes =>
      simp only [RuntimeState.dispatch, RuntimeState.dispatchLink] at h
      split at h
      · exact forwards rfl h
      · cases h
        rfl

/-! ## One iteration -/

/-- The events of the forwarder that an input means. -/
def forwardEvents (build : Build) (outside : Outside) (input : RuntimeInput) : List ForwardEvent :=
  ((meaning build outside input).map Prod.fst).getD []

/-- What an iteration after which the loop goes on does. -/
structure Turned (build : Build) (outside : Outside) (rt : RuntimeState) (input : RuntimeInput)
    (rt' : RuntimeState) (effects : List Effect) (planeActions : List ControlAction)
    (forwardActions : List ForwardAction) (pubsubActions : List PubSubAction) : Prop where
  forwarder : emitAll (fun f e => f.handle outside.now e) rt.forwarder
    (forwardEvents build outside input ++ (routeEvents planeActions ++
      pubsubActions.filterMap (multicastOf rt.forwarder.me))) = some (rt'.forwarder, forwardActions)
  plane : (rt'.plane = rt.plane ∧ planeActions = [] ∧ ∀ timer, input ≠ .timer (.control timer)) ∨
    ∃ event, rt.plane.handle outside.now event = some (rt'.plane, planeActions) ∧
      ∀ timer, event = .timer timer ↔ input = .timer (.control timer)
  pubsub : ∃ discoveries,
    (publishedAds planeActions).mapM discoveryFromTopicAds = some discoveries ∧
    emitAll (pubSubStep build outside.now) rt.pubsub (input.pubSubEvent?.toList ++
      (discoveries.map PubSubEvent.discoveryUpdated ++ forwardActions.filterMap inboundOf)) =
        some (rt'.pubsub, pubsubActions)
  frames : ∃ controlFrames : List (LinkId × WireFrame),
    (∀ x ∈ controlFrames, x.2.frameType ≠ .forward) ∧
    frames effects = controlFrames ++ forwardFrames forwardActions
  scheduled : schedules effects =
    (Control.timers planeActions).map ofControl ++ (Forward.timers forwardActions).map ofForward
  outcomes : outcomes effects = pubsubActions.filterMap outcomeOf

/-- The timer of the forwarder that an input delivers, if any. -/
def RuntimeInput.forwardTimer? : RuntimeInput → Option ForwardTimer
  | .timer (.forward t) => some t
  | _ => none

/-- What an input means to the cores, with its timers set apart. -/
theorem meaning_timers {events : List ForwardEvent} {controlEvent : Option ControlEvent}
    (h : meaning build outside input = some (events, controlEvent)) :
    ∃ others, events = input.forwardTimer?.toList.map ForwardEvent.timer ++ others ∧
      (∀ e ∈ others, ∀ timer, e ≠ .timer timer) ∧
      ∀ timer, controlEvent = some (.timer timer) ↔ input = .timer (.control timer) := by
  cases input with
  | timer timer =>
    cases timer with
    | control timer =>
      cases h
      exact ⟨[], rfl, by simp, by simp⟩
    | forward timer =>
      cases h
      exact ⟨[], rfl, by simp, by simp⟩
  | forward input =>
    cases input with
    | outbound packet =>
      cases h
      exact ⟨[.outbound packet], rfl, by simp, by simp⟩
    | outboundMulticast destinations packet =>
      cases h
      exact ⟨[.outboundMulticast destinations packet], rfl, by simp, by simp⟩
  | pubSub event =>
    cases h
    exact ⟨[], rfl, by simp, by simp⟩
  | link event =>
    cases event with
    | up link peer =>
      obtain ⟨cost, hcost, heq⟩ := Option.map_eq_some_iff.mp h
      cases heq
      exact ⟨[.linkCredit link maxPayloadLen, .linkWritable link], rfl, by simp, by simp⟩
    | down link =>
      cases h
      exact ⟨[.linkDown link], rfl, by simp, by simp⟩
    | frame link frame =>
      simp only [meaning] at h
      split at h
      · split at h
        · cases h
        · rename_i packet hdec
          cases h
          exact ⟨[.inbound link packet], rfl, by simp, by simp⟩
      · split at h <;> cases h
        exact ⟨[], rfl, by simp, by simp⟩
    | sent link frameType channel payloadBytes =>
      simp only [meaning] at h
      split at h
      · cases h
        exact ⟨[.linkCredit link payloadBytes, .linkWritable link], rfl, by simp, by simp⟩
      · cases h
        exact ⟨[], rfl, by simp, by simp⟩

/-- The event of the control plane is a timer only if the input is. -/
theorem turn_event_timer {turn : Turn} {meant : Option ControlEvent}
    (hevent : turn.controlEvent = meant) (hquiet : meant ≠ none → turn.pubsubActions = [])
    (hmeant : ∀ timer, meant = some (.timer timer) ↔ input = .timer (.control timer))
    (timer : ControlTimer) :
    turn.event = some (.timer timer) ↔ input = .timer (.control timer) := by
  rw [← hmeant]
  by_cases hnone : meant = none
  · subst hnone
    unfold Turn.event
    split
    · simp
    · rw [hevent]
  · rw [Turn.event_of_quiet (hquiet hnone), hevent]

theorem routeEvents_not_timer (actions : List ControlAction) :
    ∀ e ∈ routeEvents actions, ∀ timer, e ≠ .timer timer := by
  intro e he timer
  obtain ⟨action, -, haction⟩ := List.mem_filterMap.mp he
  cases action <;> cases haction
  simp

theorem mem_multicasts {me : NodeId} {actions : List PubSubAction} {e : ForwardEvent}
    (h : e ∈ actions.filterMap (multicastOf me)) :
    ∃ destinations packet, e = .outboundMulticast destinations packet := by
  obtain ⟨action, -, haction⟩ := List.mem_filterMap.mp h
  cases action with
  | sendMulticast =>
    obtain ⟨packet, -, rfl⟩ := Option.map_eq_some_iff.mp haction
    exact ⟨_, _, rfl⟩
  | deliverToApp | localSubscriptionsChanged | published | rejected | dropped => cases haction

/-- Only the input delivers a timer to the forwarder. -/
theorem Turned.forwarder_timers {rt rt' : RuntimeState} {effects : List Effect}
    {planeActions : List ControlAction} {forwardActions : List ForwardAction}
    {pubsubActions : List PubSubAction}
    (h : Turned build outside rt input rt' effects planeActions forwardActions pubsubActions) :
    ∃ others : List ForwardEvent, (∀ e ∈ others, ∀ timer, e ≠ .timer timer) ∧
      emitAll (fun f e => f.handle outside.now e) rt.forwarder
        (input.forwardTimer?.toList.map ForwardEvent.timer ++ others) =
          some (rt'.forwarder, forwardActions) := by
  have hrest : ∀ e ∈ routeEvents planeActions ++
      pubsubActions.filterMap (multicastOf rt.forwarder.me),
      ∀ timer, e ≠ .timer timer :=
    List.forall_mem_append.mpr ⟨routeEvents_not_timer _, fun e he timer => by
      obtain ⟨_, _, rfl⟩ := mem_multicasts he
      simp⟩
  have hrun := h.forwarder
  cases hm : meaning build outside input with
  | none =>
    have hnone : input.forwardTimer? = none := by
      cases input with
      | timer timer => cases timer <;> cases hm
      | forward input => rfl
      | pubSub event => rfl
      | link event => rfl
    rw [forwardEvents, hm] at hrun
    rw [hnone]
    exact ⟨_, hrest, hrun⟩
  | some m =>
    obtain ⟨events, controlEvent⟩ := m
    obtain ⟨first, rfl, hfirst, -⟩ := meaning_timers hm
    rw [forwardEvents, hm] at hrun
    refine ⟨first ++ (routeEvents planeActions ++
      pubsubActions.filterMap (multicastOf rt.forwarder.me)),
      List.forall_mem_append.mpr ⟨hfirst, hrest⟩, ?_⟩
    rw [← List.append_assoc]
    exact hrun

/-- What the plane's part of an iteration does when the loop goes on. -/
structure Controlled (build : Build) (outside : Outside) (rt : RuntimeState) (turn : Turn)
    (s : Progress) (planeActions : List ControlAction) : Prop where
  plane : (s.state.plane = rt.plane ∧ planeActions = [] ∧ turn.event = none) ∨
    ∃ event, rt.plane.handle outside.now event = some (s.state.plane, planeActions) ∧
      turn.event = some event
  routed : ∃ new, emitAll (fun f e => f.handle outside.now e) rt.forwarder
    (routeEvents planeActions) = some (s.state.forwarder, new) ∧
      s.forwardActions = turn.forwardActions ++ new
  pubsub : ∃ discoveries,
    (publishedAds planeActions).mapM discoveryFromTopicAds = some discoveries ∧
    emitAll (pubSubStep build outside.now) rt.pubsub
      (discoveries.map PubSubEvent.discoveryUpdated) = some (s.state.pubsub, [])
  actions : s.pubsubActions = turn.pubsubActions
  frames : ∀ x ∈ frames s.effects, x.2.frameType ≠ .forward
  scheduled : schedules s.effects = (Control.timers planeActions).map ofControl
  outcomes : outcomes s.effects = []

theorem control_controlled {rt : RuntimeState} {turn : Turn} {s : Progress}
    (h : rt.control build outside turn = some (s, true)) :
    ∃ planeActions, Controlled build outside rt turn s planeActions := by
  unfold RuntimeState.control at h
  cases hevent : turn.event with
  | none =>
    simp only [hevent] at h
    cases h
    exact ⟨[], .inl ⟨rfl, rfl, hevent⟩, ⟨[], rfl, (List.append_nil _).symm⟩, ⟨[], rfl, rfl⟩, rfl,
      by simp [frames], rfl, rfl⟩
  | some event =>
    simp only [hevent, bind, Option.bind_eq_some_iff] at h
    obtain ⟨⟨plane, planeActions⟩, hhandle, hrun⟩ := h
    obtain ⟨houtcomes, hgoes⟩ := runControl_runs hrun
    obtain ⟨hpubsub, hscheduled⟩ := hgoes rfl
    obtain ⟨done, -, hdone, hrouted, hplane, -, hactions⟩ := runControl_spec hrun
    obtain rfl : done = planeActions := hdone rfl
    have hhandle : rt.plane.handle outside.now event = some (s.state.plane, done) := by
      rw [hplane]
      exact hhandle
    exact ⟨done, .inr ⟨event, hhandle, hevent⟩, hrouted, hpubsub, hactions,
      runControl_frames hrun (by simp [frames]), hscheduled, houtcomes⟩

theorem iterate_turned {rt rt' : RuntimeState} {effects : List Effect}
    (h : rt.iterate build outside input = some (rt', effects, true)) :
    ∃ planeActions forwardActions pubsubActions,
      Turned build outside rt input rt' effects planeActions forwardActions pubsubActions := by
  simp only [RuntimeState.iterate, RuntimeState.collect, bind, Option.bind_eq_some_iff] at h
  obtain ⟨⟨s, goes⟩, ⟨d, hd, hs⟩, h⟩ := h
  have hspec := dispatch_spec hd
  cases hm : meaning build outside input with
  | none =>
    rw [hm] at hspec
    obtain ⟨link, rfl⟩ := hspec
    cases hs
    cases h
    have hinput : ∃ event, input = .link event := by
      cases input with
      | link event => exact ⟨event, rfl⟩
      | timer timer => cases timer <;> cases hm
      | forward input => cases input <;> cases hm
      | pubSub event => cases hm
    obtain ⟨event, rfl⟩ := hinput
    refine ⟨[], [], [], ?_, .inl ⟨rfl, rfl, by simp⟩, ⟨[], rfl, rfl⟩, ⟨[], by simp, rfl⟩, rfl, rfl⟩
    rw [forwardEvents, hm]
    rfl
  | some m =>
    obtain ⟨events, controlEvent⟩ := m
    rw [hm] at hspec
    obtain ⟨rt1, turn, rfl, hdisp⟩ := hspec
    have hevents : forwardEvents build outside input = events := by
      rw [forwardEvents, hm]
      rfl
    have hfirst := dispatch_runs hd
    obtain ⟨-, -, -, hmeant⟩ := meaning_timers hm
    have htimer := turn_event_timer hdisp.event hdisp.quiet hmeant
    simp only [Option.bind_eq_some_iff] at hs
    obtain ⟨⟨s1, flag⟩, hcontrol, hs⟩ := hs
    split at hs
    · cases hs
      cases h
    · rename_i hflag
      have hflag : flag = true := by simpa using hflag
      subst hflag
      simp only [Option.bind_eq_some_iff] at hs
      obtain ⟨⟨f, actions, effects1⟩, hpubsub, heq⟩ := hs
      cases heq
      simp only [Bool.not_true, Bool.false_eq_true, if_false, Option.bind_eq_some_iff] at h
      obtain ⟨⟨rt2, effects2⟩, hexec, heq⟩ := h
      cases heq
      obtain ⟨planeActions, hc⟩ := control_controlled hcontrol
      obtain ⟨new, hrouted, happ⟩ := hc.routed
      obtain ⟨discoveries, hdiscovered, hupdates⟩ := hc.pubsub
      obtain ⟨houtcomes, hsilent, hmulticast⟩ := executePubSubActions_runs hpubsub
      have hquiet := (executePubSubActions_spec hpubsub).1
      obtain ⟨acts, hinbound, houtcomes', hnone, hscheduled⟩ :=
        executeForwardActions_runs rt.forwarder.me hexec
      obtain ⟨hsame, hframes⟩ := executeForwardActions_executed hexec
      rw [hc.actions] at hmulticast houtcomes
      refine ⟨planeActions, s1.forwardActions ++ actions, turn.pubsubActions ++ acts, ?_, ?_,
        ⟨discoveries, hdiscovered, ?_⟩, ⟨frames s1.effects, hc.frames, ?_⟩, ?_, ?_⟩
      · rw [handleAll_me hrouted, handleAll_me hdisp.forwarded] at hmulticast
        rw [List.filterMap_append, hnone, List.append_nil, hevents, hsame.forwarder, happ,
          List.append_assoc]
        exact emitAll_append_some hdisp.forwarded (emitAll_append_some hrouted hmulticast)
      · rcases hc.plane with ⟨hplane, hquiet, hevent⟩ | ⟨event, hhandle, hevent⟩
        · refine .inl ⟨hsame.plane.trans (hplane.trans hdisp.plane), hquiet, fun timer hinput => ?_⟩
          cases hevent.symm.trans ((htimer timer).mpr hinput)
        · refine .inr ⟨event, ?_, fun timer => ?_⟩
          · rw [hsame.plane, ← hdisp.plane]
            exact hhandle
          · rw [← htimer timer, hevent]
            simp
      · have hnew := emitAll_append_some hupdates hinbound
        rw [List.nil_append] at hnew
        exact emitAll_append_some hfirst hnew
      · rw [frames_append, frames_append, hquiet, hframes, List.append_nil]
      · rw [schedules_append, schedules_append, hsilent, hscheduled, hc.scheduled,
          List.append_nil]
      · rw [outcomes_append, outcomes_append, houtcomes, houtcomes', List.filterMap_append,
          hc.outcomes]
        rfl

end Runtime
end MeshBus
