import MeshBus.Control.Schedule
import MeshBus.Forward.Guarded
import MeshBus.PubSub.Envelope
import MeshBus.Runtime.Loop
import MeshBus.Runtime.Prost

/-!
# Runtime.Live

The forwarder sends on live links only: links that came up with a configured cost and have not
gone down. Routes arrive late and go stale with every failure, so the invariant spans both cores:
every next hop in the forwarder's table is live or among its failed links, whatever waits in a
queue waits for a live link, and the links of the control plane are the live ones.
-/

namespace MeshBus
namespace Runtime

open Control Forward Wire PubSub

/-- The live links once an input is taken: an `Up` with a configured cost adds its link, a `Down`
takes it away. -/
def liveAfter (outside : Outside) (live : Finset LinkId) : RuntimeInput → Finset LinkId
  | .link (.up link peer) => if outside.peerCosts[peer]?.isSome then insert link live else live
  | .link (.down link) => live.erase link
  | _ => live

theorem liveAfter_of_close {build : Build} {outside : Outside} {input : RuntimeInput}
    (h : meaning build outside input = none) (live : Finset LinkId) :
    liveAfter outside live input = live := by
  unfold meaning at h
  unfold liveAfter
  split at h <;> first | rfl | cases h | skip
  rename_i link peer
  rw [Option.map_eq_none_iff] at h
  simp [h]

/-- An input takes a link down, brings one up, or leaves the links alone, for both cores alike. -/
inductive Means (outside : Outside) (input : RuntimeInput) :
    List ForwardEvent → Option ControlEvent → Prop
  | down (link : LinkId) (live : ∀ live, liveAfter outside live input = live.erase link) :
      Means outside input [.linkDown link] (some (.linkDown link))
  | up {events} (link : LinkId) (peer : NodeId) (cost : LinkCost)
      (live : ∀ live, liveAfter outside live input = insert link live)
      (events_eq : events = [.linkCredit link maxPayloadLen, .linkWritable link]) :
      Means outside input events (some (.linkUp link peer cost))
  | other {events controlEvent} (live : ∀ live, liveAfter outside live input = live)
      (keeps : ∀ e ∈ events, (∀ link, e ≠ .linkDown link) ∧ ∀ table, e ≠ .routesUpdated table)
      (quiet : ∀ event, controlEvent = some event →
        (∀ link peer cost, event ≠ .linkUp link peer cost) ∧ ∀ link, event ≠ .linkDown link) :
      Means outside input events controlEvent

theorem meaning_spec {build : Build} {outside : Outside} {input : RuntimeInput}
    {events : List ForwardEvent} {controlEvent : Option ControlEvent}
    (h : meaning build outside input = some (events, controlEvent)) :
    Means outside input events controlEvent := by
  cases input with
  | timer timer =>
    cases timer with
    | control timer =>
      cases h
      exact .other (fun _ => rfl) (by simp) (by simp)
    | forward timer =>
      cases h
      exact .other (fun _ => rfl) (by simp) (by simp)
  | forward input =>
    cases input with
    | outbound packet =>
      cases h
      exact .other (fun _ => rfl) (by simp) (by simp)
    | outboundMulticast destinations packet =>
      cases h
      exact .other (fun _ => rfl) (by simp) (by simp)
  | pubSub event =>
    cases h
    exact .other (fun _ => rfl) (by simp) (by simp)
  | link event =>
    cases event with
    | up link peer =>
      obtain ⟨cost, hcost, heq⟩ := Option.map_eq_some_iff.mp h
      cases heq
      refine .up link peer cost (fun live => ?_) rfl
      simp [liveAfter, hcost]
    | down link =>
      cases h
      exact .down link fun _ => rfl
    | frame link frame =>
      simp only [meaning] at h
      split at h
      · split at h
        · cases h
        · cases h
          exact .other (fun _ => rfl) (by simp) (by simp)
      · split at h
        · cases h
        · cases h
          exact .other (fun _ => rfl) (by simp) (by simp)
    | sent link frameType channel payloadBytes =>
      simp only [meaning] at h
      split at h
      · cases h
        exact .other (fun _ => rfl) (by simp) (by simp)
      · cases h
        exact .other (fun _ => rfl) (by simp) (by simp)

/-- A runtime and its live links. -/
structure Linked where
  rt : RuntimeState
  live : Finset LinkId

namespace Linked

def start (me : NodeId) (epoch : UInt32) (persistedSeq : UInt64) (policies : TopicPolicies) :
    Linked where
  rt := .spawn me epoch persistedSeq policies
  live := ∅

/-- One iteration after which the loop goes on. -/
def step (build : Build) (s : Linked) (x : Outside × RuntimeInput) : Option Linked := do
  let (rt, _, continues) ← s.rt.iterate build x.1 x.2
  if continues then some ⟨rt, liveAfter x.1 s.live x.2⟩ else none

/-- The links of the plane are the live ones, and the forwarder is guarded by them. -/
structure Inv (rt : RuntimeState) (live : Finset LinkId) : Prop where
  plane : ∀ l, l ∈ rt.plane.adjacencies ↔ l ∈ live
  forwarder : rt.forwarder.Guarded (· ∈ live)

theorem inv_start (me : NodeId) (epoch : UInt32) (persistedSeq : UInt64)
    (policies : TopicPolicies) : Inv (start me epoch persistedSeq policies).rt ∅ := by
  refine ⟨?_, ?_, ?_⟩
  · intro l
    simp [start, RuntimeState.spawn, ControlPlane.newUnsecuredWithSeq,
      ControlPlane.withAuthAndSeq]
  · intro d r hr
    simp [start, RuntimeState.spawn, ControlPlane.newUnsecuredWithSeq,
      ControlPlane.withAuthAndSeq, Forwarder.new, RouteTable.get, default] at hr
  · intro l priority hne
    simp [start, RuntimeState.spawn, Forwarder.new, Forwarder.queue, Forwarder.linkState] at hne
    exact absurd rfl hne

/-- The events of an input leave the forwarder guarded by the links that are live then. -/
theorem input_guarded {outside : Outside} {input : RuntimeInput} {events : List ForwardEvent}
    {controlEvent : Option ControlEvent} (hmeans : Means outside input events controlEvent)
    {live : Finset LinkId} {f f' : Forwarder} {acts : List ForwardAction}
    (hf : f.Guarded (· ∈ live))
    (h : emitAll (fun f e => f.handle outside.now e) f events = some (f', acts)) :
    f'.Guarded (· ∈ liveAfter outside live input) ∧
      ∀ x ∈ sentOn acts, x.1 ∈ liveAfter outside live input := by
  cases hmeans with
  | down link hlive =>
    obtain ⟨f1, out, rest, h1, h2, rfl⟩ := emitAll_cons_inv h
    cases h2
    rw [hlive, List.append_nil]
    refine Forwarder.handle_guarded ((hf.linkDown link).mono fun l hl => ?_) h1
    exact Finset.mem_erase.mpr ⟨hl.2, hl.1⟩
  | up link peer cost hlive heq =>
    rw [hlive]
    subst heq
    exact Forwarder.emitAll_guarded (by simp)
      (hf.mono fun l hl => Finset.mem_insert_of_mem hl) h
  | other hlive keeps quiet =>
    rw [hlive]
    refine Forwarder.emitAll_guarded (fun e he => ⟨(keeps e he).1, ?_⟩) hf h
    intro table htable
    exact absurd htable ((keeps e he).2 table)

/-- The links of the plane follow the live ones. -/
theorem plane_live {outside : Outside} {input : RuntimeInput} {events : List ForwardEvent}
    {controlEvent : Option ControlEvent} (hmeans : Means outside input events controlEvent)
    {live : Finset LinkId} {p q : ControlPlane} {planeActions : List ControlAction}
    (hp : ∀ l, l ∈ p.adjacencies ↔ l ∈ live)
    (h : q = p ∧ planeActions = [] ∧ controlEvent = none ∨
      ∃ event, p.handle outside.now event = some (q, planeActions) ∧
        (controlEvent = some event ∨
          controlEvent = none ∧ ∃ ads, event = .localTopicAdsChanged ads)) :
    ∀ l, l ∈ q.adjacencies ↔ l ∈ liveAfter outside live input := by
  cases hmeans with
  | down link hlive =>
    obtain ⟨-, -, hnone⟩ | ⟨event, hhandle, heq | ⟨hnone, -⟩⟩ := h
    · cases hnone
    · cases heq
      intro l
      rw [ControlPlane.handle_adjacencies hhandle, hlive, OrdMap.mem_erase, Finset.mem_erase, hp,
        ne_comm]
    · cases hnone
  | up link peer cost hlive heq =>
    obtain ⟨-, -, hnone⟩ | ⟨event, hhandle, heq | ⟨hnone, -⟩⟩ := h
    · cases hnone
    · cases heq
      intro l
      rw [ControlPlane.handle_adjacencies hhandle, hlive, OrdMap.mem_insert, Finset.mem_insert, hp,
        eq_comm]
    · cases hnone
  | other hlive keeps quiet =>
    rw [hlive]
    obtain ⟨rfl, -, -⟩ | ⟨event, hhandle, hevent⟩ := h
    · exact hp
    · have hother : (∀ link peer cost, event ≠ .linkUp link peer cost) ∧
          ∀ link, event ≠ .linkDown link := by
        rcases hevent with heq | ⟨-, ads, rfl⟩
        · exact quiet event heq
        · simp
      have hsame : q.adjacencies = p.adjacencies := by
        rw [ControlPlane.handle_adjacencies hhandle]
        cases event with
        | linkUp link peer cost => exact absurd rfl (hother.1 link peer cost)
        | linkDown link => exact absurd rfl (hother.2 link)
        | localTopicAdsChanged _ | frame _ _ | timer _ => rfl
      rw [hsame]
      exact hp

/-- After the events of an input come the tables the plane publishes, all of whose next hops are
links of the plane, and multicasts. -/
theorem later_events {now : MonoTime} {controlEvent : Option ControlEvent} {p q : ControlPlane}
    {planeActions done : List ControlAction} {multicasts : List ForwardEvent}
    {live : Finset LinkId} (hlive : ∀ l, l ∈ q.adjacencies ↔ l ∈ live)
    (hkind : ∀ e ∈ multicasts, ∃ destinations packet, e = .outboundMulticast destinations packet)
    (hpre : done <+: planeActions)
    (hplane : q = p ∧ planeActions = [] ∧ controlEvent = none ∨
      ∃ event, p.handle now event = some (q, planeActions) ∧
        (controlEvent = some event ∨
          controlEvent = none ∧ ∃ ads, event = .localTopicAdsChanged ads)) :
    ∀ e ∈ routeEvents done ++ multicasts,
      (∃ table, e = .routesUpdated table ∧ ∀ d r, table.get d = some r → r.nextHop ∈ live) ∨
        ∃ destinations packet, e = .outboundMulticast destinations packet := by
  intro e he
  rcases List.mem_append.mp he with he | he
  · obtain ⟨action, haction, heq⟩ := List.mem_filterMap.mp he
    cases action with
    | publishRoutes table =>
      cases heq
      refine .inl ⟨table, rfl, fun d r hr => ?_⟩
      have htable : table ∈ published planeActions :=
        List.mem_filterMap.mpr ⟨_, hpre.subset haction, rfl⟩
      obtain ⟨-, rfl, -⟩ | ⟨event, hhandle, -⟩ := hplane
      · simp at htable
      · exact (hlive _).mp (ControlPlane.handle_publishes hhandle htable hr)
    | send _ _ | setTimer _ _ | publishTopicAds _ | persistSeq _ => cases heq
  · exact .inr (hkind e he)

/-- What an iteration leaves before the forward actions are executed. -/
theorem Inv.collect {build : Build} {outside : Outside} {input : RuntimeInput} {rt : RuntimeState}
    {live : Finset LinkId} (hinv : Inv rt live) {s : Progress} {continues : Bool}
    (h : rt.collect build outside input = some (s, continues)) :
    Inv s.state (liveAfter outside live input) ∧
      ∀ x ∈ sentOn s.forwardActions, x.1 ∈ liveAfter outside live input := by
  have hspec := (collect_spec h).1
  cases hm : meaning build outside input with
  | none =>
    simp only [hm] at hspec
    rw [hspec.1, hspec.2, liveAfter_of_close hm]
    exact ⟨hinv, by simp⟩
  | some m =>
    obtain ⟨events, controlEvent⟩ := m
    simp only [hm] at hspec
    obtain ⟨planeActions, done, multicasts, hrun, hkind, hpre, hplane⟩ := hspec.forwarded
    have hmeans := meaning_spec hm
    have hlive := plane_live hmeans hinv.plane hplane
    obtain ⟨f1, out, rest, h1, h2, hacts⟩ := emitAll_append_inv hrun
    obtain ⟨hf1, hout⟩ := input_guarded hmeans hinv.forwarder h1
    obtain ⟨hf2, hrest⟩ : s.state.forwarder.Guarded (· ∈ liveAfter outside live input) ∧
        ∀ x ∈ sentOn rest, x.1 ∈ liveAfter outside live input := by
      refine Forwarder.emitAll_guarded ?_ hf1 h2
      intro e he
      obtain ⟨table, rfl, htable⟩ | ⟨destinations, packet, rfl⟩ :=
        later_events hlive hkind hpre hplane e he
      · refine ⟨by simp, ?_⟩
        rintro _ ⟨rfl⟩
        exact htable
      · exact ⟨by simp, by simp⟩
    refine ⟨⟨hlive, hf2⟩, fun x hx => ?_⟩
    rw [hacts, sentOn_append, List.mem_append] at hx
    exact hx.elim (hout x) (hrest x)

theorem Inv.iterate {build : Build} {outside : Outside} {input : RuntimeInput}
    {rt rt' : RuntimeState} {live : Finset LinkId} {effects : List Effect} (hinv : Inv rt live)
    (h : rt.iterate build outside input = some (rt', effects, true)) :
    Inv rt' (liveAfter outside live input) := by
  obtain ⟨progress, hcollect, hexec, -⟩ := iterate_collect h
  obtain ⟨hplane, hforwarder⟩ := (hinv.collect hcollect).1
  refine ⟨?_, ?_⟩
  · simp only [hexec.plane]
    exact hplane
  · simp only [hexec.forwarder]
    exact hforwarder

theorem Inv.step {build : Build} {s s' : Linked} {x : Outside × RuntimeInput}
    (hs : Inv s.rt s.live) (h : s.step build x = some s') : Inv s'.rt s'.live := by
  simp only [Linked.step, bind, Option.bind_eq_some_iff] at h
  obtain ⟨⟨rt, effects, continues⟩, hiter, h⟩ := h
  split at h
  · rename_i hc
    have hc : continues = true := hc
    subst hc
    cases h
    exact hs.iterate hiter
  · cases h

/-- Every `Send` of an iteration names a link that has had its `Up`, with a configured cost, and
not yet its `Down`. `forwardActions` are all the actions the forwarder returns in the iteration. -/
theorem sends_on_live_links {build : Build} {me : NodeId} {epoch : UInt32} {persistedSeq : UInt64}
    {policies : TopicPolicies} {inputs : List (Outside × RuntimeInput)} {s : Linked}
    (hrun : inputs.foldlM (step build) (start me epoch persistedSeq policies) = some s)
    {outside : Outside} {input : RuntimeInput} {progress : Progress} {continues : Bool}
    (hnext : s.rt.collect build outside input = some (progress, continues)) {link : LinkId}
    {packet : ForwardPacket} (hsend : .send link packet ∈ progress.forwardActions) :
    link ∈ liveAfter outside s.live input := by
  have hinv : Inv s.rt s.live := foldlM_inv (P := fun s : Linked => Inv s.rt s.live)
    (fun _ _ _ hs hstep => hs.step hstep) (inv_start me epoch persistedSeq policies) hrun
  exact (hinv.collect hnext).2 (link, packet) (mem_sentOn.mpr hsend)

/-- The LSA of a neighbour. -/
def neighbourFrame : WireFrame :=
  .control .lsa (Proto.SignedLsa.encode ⟨encodeLsa Timed.neighbourLsa, []⟩)

/-- The readers for what the encoders write, in a debug build. -/
def neighbourBuild : Build where
  prost := Proto.readers
  readEnvelope := envelopeLayout.read
  debug := true

/-- The neighbour has a cost. -/
def beside (now : MonoTime) : Outside where
  now := now
  peerCosts := (∅ : OrdMap NodeId LinkCost).insert (.ofByte 2) unitCost
  persists _ := true

/-- A packet for the neighbour. -/
def neighbourPacket : ForwardPacket where
  header :=
    { packetType := .unicast
      priority := .p1
      ttl := 8
      flags := .empty
      destination := .ofByte 2
      source := .ofByte 1
      flowId := 1
      conflateKey := 1 }
  multicastDestinations := []
  payload := [42]

def neighbourInputs : List (Outside × RuntimeInput) :=
  [(beside 0, .link (.up 7 (.ofByte 2))), (beside 10, .link (.frame 7 neighbourFrame)),
    (beside 100, .timer (.control (.spfHold 1)))]

/-- The neighbour is up and its routes are published: a packet for it leaves on its link. -/
theorem sends_on_live_links_neighbour :
    ∃ s progress, neighbourInputs.foldlM (step neighbourBuild) (start (.ofByte 1) 1 0 .empty) =
        some s ∧
      s.rt.collect neighbourBuild (beside 101) (.forward (.outbound neighbourPacket)) =
        some (progress, true) ∧
      (∃ packet, .send 7 packet ∈ progress.forwardActions) ∧
      7 ∈ liveAfter (beside 101) s.live (.forward (.outbound neighbourPacket)) := by
  have hfacts : ((neighbourInputs.foldlM (step neighbourBuild)
      (start (.ofByte 1) 1 0 .empty)).bind fun s =>
        (s.rt.collect neighbourBuild (beside 101) (.forward (.outbound neighbourPacket))).map
          fun r => (r.2, sentOn r.1.forwardActions)) =
      some (true, [(7, { neighbourPacket with
        header := { neighbourPacket.header with ttl := 7 } })]) := by
    decide +kernel
  obtain ⟨s, hrun, hs⟩ := Option.bind_eq_some_iff.mp hfacts
  obtain ⟨⟨progress, continues⟩, hnext, heq⟩ := Option.map_eq_some_iff.mp hs
  simp only [Prod.mk.injEq] at heq
  obtain ⟨rfl, hsent⟩ := heq
  have hsend : .send 7 { neighbourPacket with
      header := { neighbourPacket.header with ttl := 7 } } ∈ progress.forwardActions := by
    rw [← mem_sentOn, hsent]
    exact List.mem_singleton_self _
  exact ⟨s, progress, hrun, hnext, ⟨_, hsend⟩, sends_on_live_links hrun hnext hsend⟩

end Linked
end Runtime
end MeshBus
