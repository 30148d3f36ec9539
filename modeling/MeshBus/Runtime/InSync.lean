import MeshBus.Runtime.Discovery
import MeshBus.Runtime.Iteration
import MeshBus.Runtime.Live

/-!
# Runtime.InSync

The three cores agree after every iteration: the forwarder has the routes the control plane keeps,
and the Pub/Sub core the discovery of the topic ads the control plane keeps. So with no computation
pending, packets follow the shortest paths of the present database, and a publication is sent to the
nodes whose active LSA asks for it.
-/

namespace MeshBus

namespace Forward.Forwarder

open Wire

/-- Only a route update changes the routes. -/
theorem handle_routes {f f' : Forwarder} {now : MonoTime} {event : ForwardEvent}
    {acts : List ForwardAction} (h : f.handle now event = some (f', acts)) :
    f'.routes = (f.prepared event).routes := by
  cases hgrants : grants event with
  | false =>
    have hholds : Holds (fun _ => True) f := ⟨fun _ _ _ _ => trivial, fun _ _ _ _ _ => trivial⟩
    exact (handle_enqueues (fun _ _ _ _ _ _ _ _ => trivial) hholds
      (fun _ _ _ _ _ _ _ _ _ => trivial) hgrants h).routes
  | true =>
    obtain ⟨link, htried, -⟩ := handle_grant hgrants h
    cases event with
    | linkCredit | linkWritable => exact htried.keeps.routes
    | outbound | outboundMulticast | inbound | routesUpdated | linkDown | timer => cases hgrants

/-- No route update. -/
def KeepsRoutes (event : ForwardEvent) : Prop := ∀ table, event ≠ .routesUpdated table

theorem handleAll_routes {now : MonoTime} {events : List ForwardEvent} {f f' : Forwarder}
    {acts : List ForwardAction} (hkeeps : ∀ e ∈ events, KeepsRoutes e)
    (h : emitAll (fun f e => f.handle now e) f events = some (f', acts)) :
    f'.routes = f.routes := by
  refine (emitAll_out (P := fun g => g.routes = f.routes) (Q := fun _ => True) ?_ hkeeps rfl h).1
  intro g e g' out hg he hstep
  refine ⟨?_, fun _ _ => trivial⟩
  rw [handle_routes hstep, ← hg]
  cases e with
  | routesUpdated table => exact absurd rfl (he table)
  | outbound | outboundMulticast | inbound | linkCredit | linkWritable | linkDown | timer => rfl

end Forward.Forwarder

namespace Runtime

open Control Forward Wire PubSub Forwarder

theorem forwardEvents_keepsRoutes (build : Build) (outside : Outside) (input : RuntimeInput) :
    ∀ e ∈ forwardEvents build outside input, KeepsRoutes e := by
  rw [forwardEvents]
  cases hm : meaning build outside input with
  | none => simp
  | some m =>
    obtain ⟨events, controlEvent⟩ := m
    intro e he table heq
    subst heq
    have hspec := meaning_spec hm
    cases hspec with
    | down link _ => simp at he
    | up link peer cost _ events_eq =>
      subst events_eq
      simp at he
    | other _ keeps _ => exact (keeps _ he).2 table rfl

theorem multicastOf_keepsRoutes (me : NodeId) (actions : List PubSubAction) :
    ∀ e ∈ actions.filterMap (multicastOf me), KeepsRoutes e := by
  intro e he table
  obtain ⟨_, _, rfl⟩ := mem_multicasts he
  simp

theorem routeEvents_eq (actions : List ControlAction) :
    routeEvents actions = (published actions).map ForwardEvent.routesUpdated := by
  induction actions with
  | nil => rfl
  | cons action actions ih =>
    cases action with
    | publishRoutes routes => exact congrArg (.routesUpdated routes :: ·) ih
    | send | setTimer | publishTopicAds | persistSeq => exact ih

/-! ## One iteration -/

/-- A client publishes, subscribes and unsubscribes; discoveries and inbound payloads are made by
the loop. -/
def RuntimeInput.FromClient : RuntimeInput → Prop
  | .pubSub (.inbound _ _) => False
  | .pubSub (.discoveryUpdated _) => False
  | _ => True

/-- The three cores agree, and the plane is current unless a computation is pending. -/
structure InSync (rt : RuntimeState) : Prop where
  announced : rt.plane.Announced
  current : rt.plane.pendingSpf = none → rt.plane.Current
  routes : rt.forwarder.routes = rt.plane.routes
  discovery : discoveryFromTopicAds rt.plane.publishedTopicAds = some rt.pubsub.discovery

theorem inSync_spawn (me : NodeId) (epoch : UInt32) (persistedSeq : UInt64)
    (policies : TopicPolicies) : InSync (.spawn me epoch persistedSeq policies) where
  announced := ControlPlane.announced_new me epoch persistedSeq
  current := fun _ => ⟨ControlPlane.shortestPaths_of_empty rfl,
    (ControlPlane.discovered_of_empty rfl).symm⟩
  routes := rfl
  discovery := rfl

theorem handle_current {p q : ControlPlane} {now : MonoTime} {event : ControlEvent}
    {acts : List ControlAction} (h : p.handle now event = some (q, acts))
    (hp : p.pendingSpf = none → p.Current) (hq : q.pendingSpf = none) : q.Current := by
  cases ControlPlane.handle_recomputed h with
  | untouched => exact hp hq
  | armed harmed =>
    obtain ⟨pending, hpending, -⟩ := harmed
    rw [hpending] at hq
    cases hq
  | computed _ current => exact current

/-- The tables that a step of the plane publishes bring the forwarder to the routes it keeps. -/
theorem routed {p q : ControlPlane} {planeActions : List ControlAction} {now : MonoTime}
    {f f' : Forwarder} {acts : List ForwardAction} (hp : q.Publication p planeActions)
    (h : emitAll (fun f e => f.handle now e) f (routeEvents planeActions) = some (f', acts))
    (hf : f.routes = q.routes) : f'.routes = p.routes := by
  rw [routeEvents_eq] at h
  rcases hp.routes with ⟨hnone, hsame⟩ | ⟨hone, -⟩
  · rw [hnone] at h
    cases h
    rw [hf, hsame]
  · rw [hone] at h
    obtain ⟨f1, out, rest, hstep, hrest, rfl⟩ := emitAll_cons_inv h
    cases hrest
    rw [handle_routes hstep]
    rfl

/-- The lists of ads that it publishes bring the Pub/Sub core to their discovery. -/
theorem discovered {p q : ControlPlane} {planeActions : List ControlAction} {build : Build}
    {now : MonoTime} {ps ps' : PubSub} {acts : List PubSubAction}
    {discoveries : List DiscoveryIndex} (hp : q.Publication p planeActions)
    (hread : (publishedAds planeActions).mapM discoveryFromTopicAds = some discoveries)
    (h : emitAll (pubSubStep build now) ps (discoveries.map PubSubEvent.discoveryUpdated) =
      some (ps', acts))
    (hps : discoveryFromTopicAds q.publishedTopicAds = some ps.discovery) :
    discoveryFromTopicAds p.publishedTopicAds = some ps'.discovery := by
  rcases hp.ads with ⟨hnone, hsame⟩ | ⟨hone, -⟩
  · rw [hnone] at hread
    cases hread
    cases h
    rw [hsame, hps]
  · rw [hone, List.mapM_cons, Option.bind_eq_bind, Option.bind_eq_some_iff] at hread
    obtain ⟨index, hindex, hread⟩ := hread
    cases hread
    obtain ⟨ps1, out, rest, hstep, hrest, rfl⟩ := emitAll_cons_inv h
    cases hrest
    cases hstep
    exact hindex

/-- Without a discovery among the events the Pub/Sub core keeps the one it has. -/
theorem pubSubStep_keeps {build : Build} {now : MonoTime} {p q : PubSub} {e : PubSubEvent}
    {acts : List PubSubAction} (h : pubSubStep build now p e = some (q, acts)) :
    q.me = p.me ∧
      ((∀ discovery, e ≠ .discoveryUpdated discovery) → q.discovery = p.discovery) := by
  cases e with
  | localPublish topic payload =>
    rcases publish_cases h with hpub | ⟨reason, -, rfl | rfl⟩
    · rw [hpub.state]
      exact ⟨rfl, fun _ => rfl⟩
    · exact ⟨rfl, fun _ => rfl⟩
    · exact ⟨rfl, fun _ => rfl⟩
  | localSubscribe | localUnsubscribe =>
    cases h
    exact ⟨rfl, fun _ => rfl⟩
  | inbound source payload =>
    obtain ⟨received, hreceive⟩ := receive_state build.readEnvelope p source payload
    have hq : p.receive build.readEnvelope source payload = (q, acts) := Option.some.inj h
    rw [hq] at hreceive
    dsimp only at hreceive
    rw [hreceive]
    exact ⟨rfl, fun _ => rfl⟩
  | discoveryUpdated discovery =>
    cases h
    exact ⟨rfl, fun hother => absurd rfl (hother discovery)⟩

theorem pubSubSteps_discovery {build : Build} {now : MonoTime} {events : List PubSubEvent}
    {p q : PubSub} {acts : List PubSubAction}
    (hother : ∀ e ∈ events, ∀ discovery, e ≠ .discoveryUpdated discovery)
    (h : emitAll (pubSubStep build now) p events = some (q, acts)) : q.discovery = p.discovery := by
  refine (emitAll_out (P := fun r => r.discovery = p.discovery) (Q := fun _ => True) ?_ hother rfl
    h).1
  intro r e r' out hr he hstep
  exact ⟨((pubSubStep_keeps hstep).2 he).trans hr, fun _ _ => trivial⟩

theorem mem_inbounds {actions : List ForwardAction} {e : PubSubEvent}
    (h : e ∈ actions.filterMap inboundOf) :
    ∃ packet, .deliverLocal packet ∈ actions ∧ EnvelopeCodec.isEnvelope packet.payload = true ∧
      e = .inbound packet.header.source packet.payload := by
  obtain ⟨action, haction, heq⟩ := List.mem_filterMap.mp h
  cases action with
  | deliverLocal packet =>
    simp only [inboundOf] at heq
    split at heq
    · rename_i henvelope
      cases heq
      exact ⟨packet, haction, henvelope, rfl⟩
    · cases heq
  | send | drop | backpressure | setTimer => cases heq

/-- What an iteration keeps. -/
theorem InSync.turned {build : Build} {outside : Outside} {rt rt' : RuntimeState}
    {input : RuntimeInput} {effects : List Effect} {planeActions : List ControlAction}
    {forwardActions : List ForwardAction} {pubsubActions : List PubSubAction} (hs : InSync rt)
    (hclient : input.FromClient)
    (h : Turned build outside rt input rt' effects planeActions forwardActions pubsubActions) :
    InSync rt' := by
  -- the plane, and what it publishes
  have hplane : rt'.plane.Announced ∧ (rt'.plane.pendingSpf = none → rt'.plane.Current) ∧
      rt.plane.Publication rt'.plane planeActions := by
    rcases h.plane with ⟨hsame, rfl, -⟩ | ⟨event, hhandle, -⟩
    · rw [hsame]
      exact ⟨hs.announced, hs.current, .unchanged silent_nil⟩
    · exact ⟨hs.announced.step hhandle, handle_current hhandle hs.current,
        ControlPlane.handle_publication hhandle⟩
  obtain ⟨hannounced, hcurrent, hpublished⟩ := hplane
  -- the forwarder: only the tables change its routes
  have hroutes : rt'.forwarder.routes = rt'.plane.routes := by
    obtain ⟨f1, out, rest, hfirst, hrest, -⟩ := emitAll_append_inv h.forwarder
    obtain ⟨f2, out2, rest2, htables, hlast, -⟩ := emitAll_append_inv hrest
    rw [handleAll_routes (multicastOf_keepsRoutes _ _) hlast]
    refine routed hpublished htables ?_
    rw [handleAll_routes (forwardEvents_keepsRoutes _ _ _) hfirst, hs.routes]
  -- the Pub/Sub core: only the discoveries change its discovery
  obtain ⟨discoveries, hread, hpubsub⟩ := h.pubsub
  obtain ⟨p1, out, rest, hfirst, hrest, -⟩ := emitAll_append_inv hpubsub
  obtain ⟨p2, out2, rest2, hupdates, hlast, -⟩ := emitAll_append_inv hrest
  have hinput : ∀ e ∈ input.pubSubEvent?.toList, ∀ discovery, e ≠ .discoveryUpdated discovery := by
    rintro e he discovery rfl
    cases input with
    | pubSub event =>
      cases List.mem_singleton.mp he
      exact hclient
    | link | forward | timer => cases he
  refine ⟨hannounced, hcurrent, hroutes, ?_⟩
  have hinbound : ∀ e ∈ forwardActions.filterMap inboundOf,
      ∀ discovery, e ≠ .discoveryUpdated discovery := by
    intro e he discovery
    obtain ⟨_, -, -, rfl⟩ := mem_inbounds he
    simp
  rw [pubSubSteps_discovery hinbound hlast]
  refine discovered hpublished hread hupdates ?_
  rw [pubSubSteps_discovery hinput hfirst, hs.discovery]

theorem InSync.run {build : Build} : ∀ {inputs : List (Outside × RuntimeInput)}
    {rt rt' : RuntimeState} {effects : List Effect}, InSync rt →
    (∀ x ∈ inputs, x.2.FromClient) → rt.run build inputs = some (rt', effects, true) →
    InSync rt' := by
  intro inputs
  induction inputs with
  | nil =>
    intro rt rt' effects hs _ h
    cases h
    exact hs
  | cons x inputs ih =>
    intro rt rt' effects hs hclient h
    simp only [RuntimeState.run, bind, Option.bind_eq_some_iff] at h
    obtain ⟨⟨rt1, effects1, continues⟩, hiter, h⟩ := h
    cases continues with
    | false => cases h
    | true =>
      simp only [Bool.not_true, Bool.false_eq_true, if_false, Option.bind_eq_some_iff] at h
      obtain ⟨⟨rt2, more, continues⟩, hrest, heq⟩ := h
      cases heq
      obtain ⟨planeActions, forwardActions, pubsubActions, hturned⟩ := iterate_turned hiter
      exact ih (hs.turned (hclient x List.mem_cons_self) hturned)
        (fun y hy => hclient y (List.mem_cons_of_mem _ hy)) hrest

/-! ## Whole runs -/

/-- The limits of an ad are those of a topic, so an ad within them is read as a selector. -/
theorem adSelector_of_valid {ad : TopicAd} (h : ValidAd ad) : ∃ s, adSelector ad = .ok s := by
  let selector : TopicSelector := ⟨ad.topic, some ad.partition, validateTopic_iff.mpr h⟩
  exact ⟨asRead selector, adSelector_selectorAd selector⟩

/-- A node asks for a topic: its active LSA has an ad of a subscriber that matches. -/
def Asks (p : ControlPlane) (topic : TopicKey) (node : NodeId) : Prop :=
  ∃ e active, p.lsdb[node]? = some e ∧ e.active = some active ∧
    ∃ ad ∈ active.message.lsa.topics, ad.roles.contains .subscribe = true ∧
      ∃ selector, adSelector ad = .ok selector ∧ selector.matchesTopic topic = true

theorem subscribers_asks {p : ControlPlane} {index : DiscoveryIndex} (hp : p.Announced)
    (hcurrent : p.publishedTopicAds = p.discovered)
    (hindex : discoveryFromTopicAds p.publishedTopicAds = some index) (topic : TopicKey)
    (node : NodeId) : node ∈ index.subscribers topic ↔ Asks p topic node := by
  obtain ⟨index', hindex', hspec⟩ := discoveryFromTopicAds_spec fun d hd _ =>
    adSelector_of_valid (hp.published d hd)
  rw [hindex] at hindex'
  cases hindex'
  rw [hspec, hcurrent]
  constructor
  · rintro ⟨d, hd, rfl, hrole, hselector⟩
    obtain ⟨e, active, he, hactive, had⟩ := ControlPlane.mem_discovered.mp hd
    exact ⟨e, active, he, hactive, d.ad, had, hrole, hselector⟩
  · rintro ⟨e, active, he, hactive, ad, had, hrole, hselector⟩
    exact ⟨⟨node, ad⟩, ControlPlane.mem_discovered.mpr ⟨e, active, he, hactive, had⟩, rfl, hrole,
      hselector⟩

/-- A neighbour comes up and announces itself, and clients subscribe and publish. -/
def clientInputs : List (Outside × RuntimeInput) :=
  Linked.neighbourInputs.insertIdx 1
      (Linked.beside 5, .pubSub (.localSubscribe 1 (.exact (.ofByte 9)))) ++
    [(Linked.beside 101, .pubSub (.localPublish (.ofByte 116) [42]))]

/-- After every run of the loop the forwarder routes by the table of the plane and the Pub/Sub core
finds subscribers in the ads of the plane. With no computation pending these are the shortest paths
over the plane's links and database, and the nodes whose active LSA asks for the topic. -/
theorem cores_agree {build : Build} {me : NodeId} {epoch : UInt32} {persistedSeq : UInt64}
    {policies : TopicPolicies} {inputs : List (Outside × RuntimeInput)} {rt : RuntimeState}
    {effects : List Effect} (hclient : ∀ x ∈ inputs, x.2.FromClient)
    (h : (RuntimeState.spawn me epoch persistedSeq policies).run build inputs =
      some (rt, effects, true)) :
    rt.forwarder.routes = rt.plane.routes ∧
      discoveryFromTopicAds rt.plane.publishedTopicAds = some rt.pubsub.discovery ∧
      (rt.plane.pendingSpf = none → rt.plane.shortestPaths = some rt.forwarder.routes.routes ∧
        ∀ topic node, node ∈ rt.pubsub.discovery.subscribers topic ↔
          Asks rt.plane topic node) := by
  have hs := (inSync_spawn me epoch persistedSeq policies).run hclient h
  refine ⟨hs.routes, hs.discovery, fun hidle => ?_⟩
  obtain ⟨hpaths, hads⟩ := hs.current hidle
  rw [hs.routes]
  exact ⟨hpaths, subscribers_asks hs.announced hads hs.discovery⟩

/-- Once the neighbour has announced its subscription and the hold time is over, it is reached over
its link and found for its topic. -/
theorem cores_agree_neighbour :
    ∃ rt effects, (RuntimeState.spawn (.ofByte 1) 1 0 .empty).run Linked.neighbourBuild
        clientInputs = some (rt, effects, true) ∧ rt.plane.pendingSpf = none ∧
      rt.plane.shortestPaths = some rt.forwarder.routes.routes ∧
      (rt.forwarder.routes.get (.ofByte 2)).map Route.nextHop = some 7 ∧
      .ofByte 2 ∈ rt.pubsub.discovery.subscribers (.ofByte 116) ∧
      Asks rt.plane (.ofByte 116) (.ofByte 2) := by
  have hfacts : ((RuntimeState.spawn (.ofByte 1) 1 0 .empty).run Linked.neighbourBuild
      clientInputs).map (fun r => (r.2.2, r.1.plane.pendingSpf.isNone,
        (r.1.forwarder.routes.get (.ofByte 2)).map Route.nextHop,
        decide (.ofByte 2 ∈ r.1.pubsub.discovery.subscribers (.ofByte 116)))) =
      some (true, true, some 7, true) := by
    decide +kernel
  obtain ⟨⟨rt, effects, continues⟩, hrun, heq⟩ := Option.map_eq_some_iff.mp hfacts
  simp only [Prod.mk.injEq, Option.isNone_iff_eq_none, decide_eq_true_eq] at heq
  obtain ⟨rfl, hidle, hroute, hfound⟩ := heq
  have hclient : ∀ x ∈ clientInputs, x.2.FromClient := by
    simp [clientInputs, Linked.neighbourInputs, RuntimeInput.FromClient]
  obtain ⟨-, -, hcurrent⟩ := cores_agree hclient hrun
  obtain ⟨hpaths, hasks⟩ := hcurrent hidle
  exact ⟨rt, effects, hrun, hidle, hpaths, hroute, hfound, (hasks _ _).mp hfound⟩

end Runtime
end MeshBus
