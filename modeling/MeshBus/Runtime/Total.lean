import MeshBus.Control.Total
import MeshBus.Forward.Parking
import MeshBus.Forward.Total
import MeshBus.PubSub.Publish
import MeshBus.Runtime.InSync

/-!
# Runtime.Total

The loop does not panic. Beside what the cores need for themselves, it rests on facts that cross
them: the topics in the ads that the plane publishes are topics to the Pub/Sub core (the `expect` of
`discovery_from_topic_ads`), and only a failed link takes a generation of the forwarder, so that one
iteration, however many events it makes, takes at most one. `Fit rt n`: `rt` can take `n` inputs.
-/

namespace MeshBus

namespace Forward.Forwarder

/-- No link fails. -/
def Calm (events : List ForwardEvent) : Prop := ∀ e ∈ events, ∀ link, e ≠ .linkDown link

theorem Ready.mono {f : Forwarder} {m n : Nat} (h : f.Ready m) (hle : m ≤ n) : f.Ready n :=
  ⟨h.drr, h.generation, h.parked.trans hle⟩

/-- Only a failed link parks a batch. -/
theorem handle_parked_le {f f' : Forwarder} {now : MonoTime} {event : ForwardEvent}
    {acts : List ForwardAction} (h : f.handle now event = some (f', acts))
    (hcalm : ∀ link, event ≠ .linkDown link) : f'.pendingP0.size ≤ f.pendingP0.size := by
  have hpark := handle_parkStep h
  generalize waits acts = waiting at hpark
  cases hpark with
  | same pending => rw [pending]
  | parked link => exact absurd rfl (hcalm link)
  | retried routes pending =>
    refine OrdMap.size_le_of_keys fun g hg => ?_
    obtain ⟨batch, hbatch⟩ := OrdMap.mem_iff_get.mp hg
    rw [pending] at hbatch
    obtain ⟨old, hold, -⟩ := Option.bind_eq_some_iff.mp hbatch
    exact OrdMap.mem_iff_get.mpr ⟨old, hold⟩
  | early => exact le_rfl
  | expired => exact Std.ExtTreeMap.size_erase_le

theorem handle_ready {f : Forwarder} {n : Nat} (h : f.Ready n) (now : MonoTime)
    {event : ForwardEvent} (hcalm : ∀ link, event ≠ .linkDown link) :
    Ends (f.handle now event) fun r => r.1.Ready n := by
  obtain ⟨⟨f', acts⟩, heq, hready⟩ := handle_ends h now
    (show f.HasGeneration event from fun link hlink => absurd hlink (hcalm link))
  exact ⟨_, heq, hready.drr, hready.generation, (handle_parked_le heq hcalm).trans h.parked⟩

theorem handleAll_ready {now : MonoTime} {n : Nat} : ∀ {events : List ForwardEvent} {f : Forwarder},
    f.Ready n → Calm events →
    Ends (emitAll (fun f e => f.handle now e) f events) fun r => r.1.Ready n := by
  intro events
  induction events with
  | nil => exact fun h _ => .pure h
  | cons e events ih =>
    intro f h hcalm
    obtain ⟨⟨f1, out⟩, hhead, h1⟩ := handle_ready h now (hcalm e List.mem_cons_self)
    obtain ⟨⟨f2, rest⟩, htail, h2⟩ := ih h1 fun x hx => hcalm x (List.mem_cons_of_mem _ hx)
    exact ⟨_, emitAll_cons_some hhead htail, h2⟩

end Forward.Forwarder

namespace Runtime

open Control Forward Wire PubSub Forwarder

/-! ## The parts of an iteration -/

section Parts

variable {build : Build} (outside : Outside) {n : Nat}

theorem pubSubStep_ends (hrelease : build.debug = false) (now : MonoTime) (p : PubSub)
    (event : PubSubEvent) :
    Ends (p.handle build.readEnvelope build.debug now event) fun _ => True := by
  rw [hrelease]
  cases event with
  | localPublish topic payload =>
    obtain ⟨q, out, h, -⟩ := p.publish_total now topic payload
    exact ⟨_, h, trivial⟩
  | localSubscribe | localUnsubscribe | inbound | discoveryUpdated => exact .pure trivial

theorem forward_ends {rt : RuntimeState} (h : rt.forwarder.Ready n) (now : MonoTime)
    {events : List ForwardEvent} (hcalm : Calm events) :
    Ends (rt.forward now events) fun r => r.1.forwarder.Ready n :=
  (handleAll_ready h hcalm).bind fun _ hready => .pure hready

theorem forward_linkDown_ends (rt : RuntimeState) (h : rt.forwarder.Ready n) (hn : n < 2 ^ 64)
    (now : MonoTime) (link : LinkId) :
    Ends (rt.forward now [.linkDown link]) fun r => r.1.forwarder.Ready (n + 1) := by
  obtain ⟨⟨f', acts⟩, heq, hready⟩ := handle_ends h now (h.hasGeneration hn (.linkDown link))
  refine Ends.bind (P := fun r => r.1.Ready (n + 1)) ⟨_, emitAll_cons_some heq rfl, hready⟩ ?_
  exact fun _ hready => .pure hready

/-- The forwarder is ready, if the input is for the cores. -/
def Dispatched.Ready (n : Nat) : Dispatched → Prop
  | .close _ => True
  | .turn rt _ => rt.forwarder.Ready n

theorem dispatch_plane {rt rt' : RuntimeState} {input : RuntimeInput} {turn : Turn}
    (h : rt.dispatch build outside input = some (.turn rt' turn)) : rt'.plane = rt.plane := by
  have hspec := dispatch_spec h
  cases hm : meaning build outside input with
  | none =>
    rw [hm] at hspec
    obtain ⟨link, heq⟩ := hspec
    cases heq
  | some m =>
    rw [hm] at hspec
    obtain ⟨rt1, turn1, heq, hdisp⟩ := hspec
    cases heq
    exact hdisp.plane

/-- An input is dispatched, and takes at most one generation. -/
theorem dispatch_ends (hrelease : build.debug = false) {rt : RuntimeState}
    (h : rt.forwarder.Ready n) (hn : n < 2 ^ 64) (input : RuntimeInput) :
    Ends (rt.dispatch build outside input) (Dispatched.Ready (n + 1)) := by
  have hlater : rt.forwarder.Ready (n + 1) := h.mono (Nat.le_succ n)
  have hclose : ∀ link, Ends (some (Dispatched.close link)) (Dispatched.Ready (n + 1)) :=
    fun _ => .pure trivial
  have hcalm : ∀ {rt1 : RuntimeState} (events : List ForwardEvent) (event : Option ControlEvent),
      rt1.forwarder = rt.forwarder → Calm events →
      Ends (rt1.forwarded outside.now events event) (Dispatched.Ready (n + 1)) := by
    intro rt1 events event hsame hevents
    exact (forward_ends (hsame ▸ hlater) outside.now hevents).bind fun _ hready => .pure hready
  cases input with
  | timer timer =>
    cases timer with
    | control timer => exact .pure hlater
    | forward timer => exact hcalm _ _ rfl (by simp [Calm])
  | forward input =>
    cases input with
    | outbound packet => exact hcalm _ _ rfl (by simp [Calm])
    | outboundMulticast destinations packet => exact hcalm _ _ rfl (by simp [Calm])
  | pubSub event =>
    exact (pubSubStep_ends hrelease outside.now rt.pubsub event).bind fun _ _ => .pure hlater
  | link event =>
    cases event with
    | up link peer =>
      simp only [RuntimeState.dispatch, RuntimeState.dispatchLink]
      split
      · exact hclose link
      · refine hcalm _ _ ?_ (by simp [Calm])
        rfl
    | down link =>
      exact (forward_linkDown_ends { rt with peers := rt.peers.erase link } h hn outside.now
        link).bind fun _ hready => .pure hready
    | frame link frame =>
      simp only [RuntimeState.dispatch, RuntimeState.dispatchLink]
      split
      · split
        · exact hclose link
        · exact hcalm _ _ rfl (by simp [Calm])
      · split
        · exact hclose link
        · exact .pure hlater
    | sent link frameType channel payloadBytes =>
      simp only [RuntimeState.dispatch, RuntimeState.dispatchLink]
      split
      · exact hcalm _ _ rfl (by simp [Calm])
      · exact .pure hlater

/-- Ads within the limits are read. -/
theorem discoveryFromTopicAds_ends {ads : List DiscoveredTopicAd} (h : ∀ d ∈ ads, ValidAd d.ad) :
    Ends (discoveryFromTopicAds ads) fun _ => True := by
  obtain ⟨index, hindex, -⟩ := discoveryFromTopicAds_spec fun d hd _ => adSelector_of_valid (h d hd)
  exact ⟨index, hindex, trivial⟩

/-- The actions of the plane are carried out, all of them if the store takes the numbers. -/
theorem runControl_ends (hrelease : build.debug = false) : ∀ {actions : List ControlAction}
    {s : Progress}, s.state.forwarder.Ready n →
    (∀ ads ∈ publishedAds actions, ∀ d ∈ ads, ValidAd d.ad) →
    Ends (runControl build outside s actions) fun r => r.1.state.forwarder.Ready n ∧
      ((∀ seq, outside.persists seq = true) → r.2 = true) := by
  intro actions
  induction actions with
  | nil => exact fun h _ => .pure ⟨h, fun _ => rfl⟩
  | cons action actions ih =>
    intro s h hads
    have hrest : ∀ ads ∈ publishedAds actions, ∀ d ∈ ads, ValidAd d.ad := by
      intro ads hmem
      refine hads ads ?_
      rw [← List.singleton_append, publishedAds_append]
      exact List.mem_append_right _ hmem
    cases action with
    | send link frame =>
      simp only [runControl]
      split
      · exact ih h hrest
      · exact ih h hrest
    | setTimer timer due => exact ih h hrest
    | publishRoutes routes =>
      exact (forward_ends h outside.now (by simp [Calm])).bind fun r hready => ih hready hrest
    | publishTopicAds ads =>
      refine (discoveryFromTopicAds_ends (hads ads List.mem_cons_self)).bind fun discovery _ => ?_
      exact (pubSubStep_ends hrelease outside.now s.state.pubsub _).bind fun r _ => ih h hrest
    | persistSeq seq =>
      simp only [runControl]
      split
      · exact ih h hrest
      · rename_i hrefused
        exact .pure ⟨h, fun hpersists => absurd (hpersists seq) hrefused⟩

theorem executePubSubActions_ends (now : MonoTime) : ∀ {actions : List PubSubAction}
    {f : Forwarder}, f.Ready n →
    Ends (executePubSubActions now f actions) fun r => r.1.Ready n := by
  intro actions
  induction actions with
  | nil => exact fun h => .pure h
  | cons action actions ih =>
    intro f h
    have hhead : Ends (executePubSubAction now f action) fun r => r.1.Ready n := by
      cases action with
      | sendMulticast destinations priority flowId conflateKey conflatable payload =>
        have hpacket : Ends (multicastPacket f.me priority flowId conflateKey conflatable payload)
            fun _ => True := by
          cases conflatable with
          | false => exact .pure trivial
          | true => exact .pure trivial
        refine hpacket.bind fun packet _ => ?_
        exact (handle_ready h now (by simp)).bind fun _ hready => .pure hready
      | deliverToApp | localSubscriptionsChanged | published | rejected | dropped => exact .pure h
    exact hhead.bind fun _ h1 => (ih h1).bind fun _ h2 => .pure h2

end Parts

/-! ## Whole runs -/

/-- The plane can take `n` events: no counter is closer to its limit. -/
structure Lasting (p : ControlPlane) (n : Nat) : Prop where
  bounded : p.Bounded
  announced : p.Announced
  seq : p.mySeq.toNat + n ≤ u64Max
  generation : p.spfGeneration + n ≤ u64Max
  version : p.routes.version + n ≤ u64Max

theorem Lasting.less {p : ControlPlane} {n : Nat} (h : Lasting p (n + 1)) : Lasting p n where
  bounded := h.bounded
  announced := h.announced
  seq := (Nat.le_succ _).trans h.seq
  generation := (Nat.le_succ _).trans h.generation
  version := (Nat.le_succ _).trans h.version

theorem Lasting.handle {p : ControlPlane} {n : Nat} (h : Lasting p (n + 1)) (now : MonoTime)
    (event : ControlEvent) : Ends (p.handle now event) fun r => Lasting r.1 n ∧
      ∀ ads ∈ publishedAds r.2, ∀ d ∈ ads, ValidAd d.ad := by
  have hseq := h.seq
  have hgeneration := h.generation
  have hversion := h.version
  have hcounters : ¬ p.Exhausted := by
    simp only [ControlPlane.Exhausted, not_or, not_le]
    exact ⟨by omega, by omega, by omega⟩
  obtain ⟨⟨q, acts⟩, hq⟩ := ControlPlane.handle_some h.bounded hcounters now event
  have hpub := ControlPlane.handle_publication hq
  have hseq' := hpub.seq
  have hgeneration' := hpub.generation
  have hversion' := hpub.version
  have hannounced := h.announced.step hq
  have hlasting : Lasting q n :=
    ⟨h.bounded.step hq, hannounced, by omega, by omega, by omega⟩
  refine ⟨_, hq, hlasting, ?_⟩
  intro ads hads
  rcases hpub.ads with ⟨hnone, -⟩ | ⟨hone, -⟩
  · rw [hnone] at hads
    cases hads
  · rw [hone] at hads
    cases List.mem_singleton.mp hads
    exact hannounced.published

/-- `rt` can take `n` inputs. -/
structure Fit (rt : RuntimeState) (n : Nat) : Prop where
  plane : Lasting rt.plane n
  forwarder : rt.forwarder.Ready (2 ^ 64 - n)

theorem fit_spawn (me : NodeId) (epoch : UInt32) {persistedSeq : UInt64} (policies : TopicPolicies)
    {n : Nat} (h : persistedSeq.toNat + n ≤ u64Max) :
    Fit (.spawn me epoch persistedSeq policies) n := by
  have hzero : 0 + n ≤ u64Max := by omega
  exact ⟨⟨ControlPlane.bounded_new me epoch persistedSeq,
    ControlPlane.announced_new me epoch persistedSeq, h, hzero, hzero⟩,
    (ready_new me _).mono (Nat.zero_le _)⟩

theorem control_ends {build : Build} {outside : Outside} (hrelease : build.debug = false)
    {rt : RuntimeState} {n m : Nat} (hplane : Lasting rt.plane (n + 1))
    (hforwarder : rt.forwarder.Ready m) (turn : Turn) :
    Ends (rt.control build outside turn) fun r => Lasting r.1.state.plane n ∧
      r.1.state.forwarder.Ready m ∧ ((∀ seq, outside.persists seq = true) → r.2 = true) := by
  rw [RuntimeState.control]
  split
  · exact .pure ⟨hplane.less, hforwarder, fun _ => rfl⟩
  · rename_i event _
    refine (hplane.handle outside.now event).bind fun r hr => ?_
    obtain ⟨s, hrun, hready, hgoes⟩ := runControl_ends outside hrelease
      (s := ⟨{ rt with plane := r.1 }, turn.forwardActions, turn.pubsubActions, []⟩) hforwarder hr.2
    obtain ⟨-, -, -, -, hsame, -, -⟩ := runControl_spec hrun
    refine ⟨s, hrun, ?_, hready, hgoes⟩
    rw [hsame]
    exact hr.1

theorem Fit.collect {build : Build} {outside : Outside} (hrelease : build.debug = false)
    {rt : RuntimeState} {n : Nat} (h : Fit rt (n + 1)) (input : RuntimeInput) :
    Ends (rt.collect build outside input) fun r => Fit r.1.state n ∧
      ((∀ seq, outside.persists seq = true) → r.2 = true) := by
  have hseq := h.plane.seq
  have hroom : 2 ^ 64 - (n + 1) + 1 = 2 ^ 64 - n := by
    unfold u64Max at hseq
    omega
  obtain ⟨d, hdispatch, hd⟩ := dispatch_ends outside hrelease h.forwarder
    (Nat.sub_lt (Nat.two_pow_pos 64) n.succ_pos) input
  rw [hroom] at hd
  simp only [RuntimeState.collect, hdispatch, bind, Option.bind_some]
  cases d with
  | close link =>
    refine .pure ⟨⟨h.plane.less, h.forwarder.mono ?_⟩, fun _ => rfl⟩
    omega
  | turn rt1 turn =>
    have hplane : Lasting rt1.plane (n + 1) := by
      rw [dispatch_plane outside hdispatch]
      exact h.plane
    refine (control_ends hrelease hplane hd turn).bind fun r hr => ?_
    obtain ⟨hlasting, hready, hgoes⟩ := hr
    cases hcontinues : r.2 with
    | false =>
      simp only [Bool.not_false, if_true]
      exact .pure ⟨⟨hlasting, hready⟩, fun hpersists => hcontinues ▸ hgoes hpersists⟩
    | true =>
      simp only [Bool.not_true, Bool.false_eq_true, if_false]
      exact (executePubSubActions_ends outside.now hready).bind fun e he =>
        .pure ⟨⟨hlasting, he⟩, fun _ => rfl⟩

/-- One input is taken, and the loop goes on unless the store fails. -/
theorem Fit.iterate {build : Build} {outside : Outside} (hrelease : build.debug = false)
    {rt : RuntimeState} {n : Nat} (h : Fit rt (n + 1)) (input : RuntimeInput) :
    Ends (rt.iterate build outside input) fun r => Fit r.1 n ∧
      ((∀ seq, outside.persists seq = true) → r.2.2 = true) := by
  refine (h.collect hrelease input).bind fun ⟨s, continues⟩ hr => ?_
  obtain ⟨hfit, hgoes⟩ := hr
  cases continues with
  | false => exact ⟨_, rfl, hfit, hgoes⟩
  | true =>
    obtain ⟨rt', effects, hexec, hsame, -⟩ := executeForwardActions_spec build outside.now
      s.forwardActions s.state
    simp only [hexec, bind, Option.bind_some]
    refine ⟨_, rfl, ⟨?_, ?_⟩, fun _ => rfl⟩
    · rw [hsame.plane]
      exact hfit.plane
    · rw [hsame.forwarder]
      exact hfit.forwarder

theorem Fit.run {build : Build} (hrelease : build.debug = false) :
    ∀ {inputs : List (Outside × RuntimeInput)} {rt : RuntimeState}, Fit rt inputs.length →
    Ends (rt.run build inputs) fun r =>
      (∀ x ∈ inputs, ∀ seq, x.1.persists seq = true) → r.2.2 = true := by
  intro inputs
  induction inputs with
  | nil => exact fun _ => .pure fun _ => rfl
  | cons x inputs ih =>
    intro rt h
    refine (h.iterate hrelease x.2).bind fun r hr => ?_
    obtain ⟨hfit, hgoes⟩ := hr
    cases hcontinues : r.2.2 with
    | false =>
      simp only [hcontinues, Bool.not_false, if_true]
      exact .pure fun hpersists => hcontinues ▸ hgoes (hpersists x List.mem_cons_self)
    | true =>
      simp only [hcontinues, Bool.not_true, Bool.false_eq_true, if_false]
      refine (ih hfit).bind fun _ hrest => .pure fun hpersists => ?_
      exact hrest fun y hy => hpersists y (List.mem_cons_of_mem _ hy)

/-- In a release build the loop never panics, whatever it receives, as long as there are sequence
numbers left for that many inputs; and it goes on as long as the numbers can be stored. -/
theorem loop_never_panics {build : Build} (hrelease : build.debug = false) (me : NodeId)
    (epoch : UInt32) (persistedSeq : UInt64) (policies : TopicPolicies)
    (inputs : List (Outside × RuntimeInput))
    (hroom : persistedSeq.toNat + inputs.length ≤ u64Max) :
    ∃ rt effects continues, (RuntimeState.spawn me epoch persistedSeq policies).run build inputs =
        some (rt, effects, continues) ∧
      ((∀ x ∈ inputs, ∀ seq, x.1.persists seq = true) → continues = true) := by
  obtain ⟨⟨rt, effects, continues⟩, hrun, hgoes⟩ :=
    (fit_spawn me epoch policies hroom).run hrelease
  exact ⟨rt, effects, continues, hrun, hgoes⟩

def releaseBuild : Build := { Linked.neighbourBuild with debug := false }

/-- The neighbour announces itself, gets a packet and fails. -/
def failingInputs : List (Outside × RuntimeInput) :=
  clientInputs ++ [(Linked.beside 102, .forward (.outbound Linked.neighbourPacket)),
    (Linked.beside 103, .link (.down 7))]

theorem loop_never_panics_neighbour :
    ∃ rt effects, (RuntimeState.spawn (.ofByte 1) 1 0 .empty).run releaseBuild failingInputs =
      some (rt, effects, true) := by
  obtain ⟨rt, effects, continues, hrun, hgoes⟩ := loop_never_panics
    (show releaseBuild.debug = false from rfl) (.ofByte 1) 1 0 .empty failingInputs (by decide)
  obtain rfl := hgoes (by simp [failingInputs, clientInputs, Linked.neighbourInputs, Linked.beside])
  exact ⟨rt, effects, hrun⟩

end Runtime
end MeshBus
