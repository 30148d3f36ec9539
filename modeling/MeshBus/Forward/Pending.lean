import MeshBus.Forward.Conservation

/-!
# Forward.Pending

P0 packets of a failed link are parked and retried on every route update; what is still parked when
the timer fires is dropped. The packets parked by `LinkDown` are not tried at once, so a packet
whose route had already moved waits although a link is usable, and expires
(`expired_with_route`). If a link only ever fails while no P0 packet on it has another link, no
packet expires that had a usable route at any time while it was parked (`expired_had_no_route`).
-/

namespace MeshBus
namespace Forward

open Wire
open Control (RouteTable)

namespace Forwarder

/-- The route table gives `r` a next hop that is up and not the link the packet came from. -/
def Usable (f : Forwarder) (r : NodeId) (incoming : Option LinkId) : Prop :=
  ∃ route, f.routes.get r = some route ∧ route.nextHop ∉ f.downLinks ∧
    incoming ≠ some route.nextHop

theorem not_usable_iff {f : Forwarder} {r : NodeId} {incoming : Option LinkId} :
    ¬ f.Usable r incoming ↔ f.rerouteLink r incoming = none := by
  simp only [Usable, rerouteLink]
  cases f.routes.get r with
  | none => simp
  | some route =>
    simp only [Option.some.injEq, exists_eq_left']
    split <;> simp_all

instance (f : Forwarder) (r : NodeId) (incoming : Option LinkId) :
    Decidable (f.Usable r incoming) :=
  decidable_of_iff (¬ f.rerouteLink r incoming = none) (by rw [← not_usable_iff, not_not])

/-- No parked packet has a recipient with a usable route. -/
def Stuck (f : Forwarder) : Prop :=
  ∀ (g : Nat) batch, f.pendingP0[g]? = some batch → ∀ q ∈ batch.packets,
    ∀ r ∈ recipients q.packet, ¬ f.Usable r q.incoming

/-- At a `LinkDown`, no recipient of a P0 packet queued on the link has another usable link. -/
def NoOtherLink (f : Forwarder) : ForwardEvent → Prop
  | .linkDown link => ∀ q ∈ f.queue link .p0, ∀ r ∈ recipients q.packet,
      ¬ Usable { f with downLinks := insert link f.downLinks } r q.incoming
  | _ => True

instance (f : Forwarder) : (event : ForwardEvent) → Decidable (f.NoOtherLink event)
  | .linkDown link => inferInstanceAs (Decidable (∀ q ∈ f.queue link .p0, ∀ r ∈ _, ¬ _))
  | .outbound _ | .outboundMulticast _ _ | .inbound _ _ | .routesUpdated _ | .linkCredit _ _
  | .linkWritable _ | .timer _ => .isTrue trivial

/-- `batch'` holds parts of packets of `batch`. -/
def Part (batch' batch : PendingP0Batch) : Prop :=
  ∀ q ∈ batch'.packets, ∃ p ∈ batch.packets, q.incoming = p.incoming ∧
    ∀ r ∈ recipients q.packet, r ∈ recipients p.packet

theorem Part.refl (batch : PendingP0Batch) : Part batch batch :=
  fun q hq => ⟨q, hq, rfl, fun _ hr => hr⟩

theorem Part.trans {a b c : PendingP0Batch} (h1 : Part a b) (h2 : Part b c) : Part a c := by
  intro q hq
  obtain ⟨p, hp, hin, hrec⟩ := h1 q hq
  obtain ⟨p', hp', hin', hrec'⟩ := h2 p hp
  exact ⟨p', hp', hin.trans hin', fun r hr => hrec' r (hrec r hr)⟩

/-- What a step does to the routes and the parked batches. -/
inductive Reroutes (f : Forwarder) (event : ForwardEvent) (f' : Forwarder) : Prop
  | same (routes : f'.routes = f.routes) (downLinks : f'.downLinks = f.downLinks)
      (pending : ∀ (g : Nat) batch, f'.pendingP0[g]? = some batch → f.pendingP0[g]? = some batch)
  | failed (link : LinkId) (event_eq : event = .linkDown link) (routes : f'.routes = f.routes)
      (downLinks : f'.downLinks = insert link f.downLinks)
      (pending : ∀ (g : Nat) batch, f'.pendingP0[g]? = some batch →
        f.pendingP0[g]? = some batch ∨ (g ∉ f.pendingP0 ∧ batch.packets = f.queue link .p0))
  | updated (pending : ∀ (g : Nat) batch, f'.pendingP0[g]? = some batch →
      ∃ old, f.pendingP0[g]? = some old ∧ Part batch old ∧
        ∀ q ∈ batch.packets, ∀ r ∈ recipients q.packet, ¬ f'.Usable r q.incoming)

theorem Keeps.reroutes {f f' : Forwarder} {event : ForwardEvent} (h : Keeps f f') :
    Reroutes f event f' :=
  .same h.routes h.downLinks fun g batch hg => by rwa [h.pendingP0] at hg

theorem handle_reroutes {f f' : Forwarder} {now : MonoTime} {event : ForwardEvent}
    {acts : List ForwardAction} (h : f.handle now event = some (f', acts)) :
    Reroutes f event f' := by
  have harrive : ∀ incoming packet, arrival event = some (incoming, packet) →
      Reroutes f event f' := by
    intro incoming packet harr
    rcases handle_arrival harr h with ⟨reason, -, rfl, -⟩ | hproc
    · exact (Keeps.refl f').reroutes
    · exact (processPacket_moves hproc).keeps.reroutes
  cases event with
  | outbound p => exact harrive _ _ rfl
  | outboundMulticast ds p => exact harrive _ _ rfl
  | inbound link p => exact harrive _ _ rfl
  | linkCredit link bytes => exact (grantCredit_granted h).tried.keeps.reroutes
  | linkWritable link => exact (markWritable_granted h).tried.keeps.reroutes
  | linkDown link =>
    have hf := handleLinkDown_spec h
    refine .failed link rfl hf.routes hf.downLinks fun g batch hg => ?_
    rcases hf.pending with hsame | ⟨g', hnew, hins⟩
    · rw [hsame] at hg
      exact .inl hg
    · rw [hins, OrdMap.get_insert] at hg
      split at hg
      · rename_i heq
        rw [← heq, ← Option.some.inj hg]
        exact .inr ⟨hnew, rfl⟩
      · exact .inl hg
  | routesUpdated routes =>
    obtain ⟨f1, hr, -, -, hempty, -, -⟩ := handleRoutesUpdated_spec h
    refine .updated fun g batch hg => ?_
    rcases hr.pending g batch hg with hg | ⟨old, hold, -, hleft⟩
    · rw [hempty] at hg
      simp at hg
    · refine ⟨old, OrdMap.mem_toList.mp hold, fun q hq => ?_, fun q hq r hrec => ?_⟩
      · obtain ⟨p, hp, hin, -, hrec⟩ := hleft q hq
        exact ⟨p, hp, hin, fun r hr => (hrec r hr).1⟩
      · obtain ⟨p, -, -, -, hnone⟩ := hleft q hq
        rw [not_usable_iff, hr.rerouteLink]
        exact (hnone r hrec).2
  | timer t =>
    obtain ⟨g⟩ := t
    have heq : f.handleTimer now (.pendingP0 g) = (f', acts) := Option.some.inj h
    rcases f.handleTimer_cases now g with ⟨acts', hsame, -⟩ | ⟨batch, -, -, herase⟩
    · rw [hsame] at heq
      cases heq
      exact (Keeps.refl f).reroutes
    · rw [herase] at heq
      cases heq
      refine .same rfl rfl fun g' b hg => ?_
      rw [OrdMap.get_erase] at hg
      split at hg
      · cases hg
      · exact hg

/-- Failures of links without another link for their P0 packets keep all parked packets stuck. -/
theorem Stuck.step {f f' : Forwarder} {now : MonoTime} {event : ForwardEvent}
    {acts : List ForwardAction} (hs : f.Stuck) (hc : f.NoOtherLink event)
    (h : f.handle now event = some (f', acts)) : f'.Stuck := by
  intro g batch hg q hq r hr
  cases handle_reroutes h with
  | same routes downLinks pending =>
    rw [Usable, routes, downLinks]
    exact hs g batch (pending g batch hg) q hq r hr
  | failed link event_eq routes downLinks pending =>
    rw [Usable, routes, downLinks]
    rcases pending g batch hg with hold | ⟨-, hnew⟩
    · rintro ⟨route, hroute, hup, hin⟩
      refine hs g batch hold q hq r hr ⟨route, hroute, fun hdown => hup ?_, hin⟩
      exact Finset.mem_insert_of_mem hdown
    · rw [hnew] at hq
      rw [event_eq] at hc
      exact hc q hq r hr
  | updated pending =>
    obtain ⟨old, -, -, hnone⟩ := pending g batch hg
    exact hnone q hq r hr

/-- While its generation stays, a batch only shrinks. -/
theorem part_step {f f' : Forwarder} {now : MonoTime} {event : ForwardEvent}
    {acts : List ForwardAction} {g : Nat} {batch : PendingP0Batch} (hmem : g ∈ f.pendingP0)
    (h : f.handle now event = some (f', acts)) (hg : f'.pendingP0[g]? = some batch) :
    ∃ old, f.pendingP0[g]? = some old ∧ Part batch old := by
  cases handle_reroutes h with
  | same routes downLinks pending => exact ⟨batch, pending g batch hg, .refl batch⟩
  | failed link event_eq routes downLinks pending =>
    rcases pending g batch hg with hold | ⟨hnew, -⟩
    · exact ⟨batch, hold, .refl batch⟩
    · exact absurd hmem hnew
  | updated pending =>
    obtain ⟨old, hold, hpart, -⟩ := pending g batch hg
    exact ⟨old, hold, hpart⟩

/-- Generation `g` is parked in `f` and in every state of the run from `f` before the last. -/
def StaysParked (g : Nat) (f : Forwarder) (events : List (MonoTime × ForwardEvent)) : Prop :=
  Along (fun f e => f.handle e.1 e.2) (fun f _ => g ∈ f.pendingP0) f events

theorem part_run {g : Nat} : ∀ {events : List (MonoTime × ForwardEvent)} {f f' : Forwarder}
    {acts : List ForwardAction} {batch : PendingP0Batch}, StaysParked g f events →
    f.run events = some (f', acts) → f'.pendingP0[g]? = some batch →
    ∃ old, f.pendingP0[g]? = some old ∧ Part batch old := by
  intro events
  induction events with
  | nil =>
    intro f f' acts batch _ h hg
    cases h
    exact ⟨batch, hg, .refl batch⟩
  | cons e events ih =>
    intro f f' acts batch hstay h hg
    obtain ⟨f1, out, rest, h1, h2, -⟩ := emitAll_cons_inv h
    obtain ⟨old, hold, hpart⟩ := ih (hstay.2 f1 out h1) h2 hg
    obtain ⟨older, holder, hpart'⟩ := part_step hstay.1 h1 hold
    exact ⟨older, holder, hpart.trans hpart'⟩

theorem timer_drops {f f' : Forwarder} {now : MonoTime} {g : Nat} {acts : List ForwardAction}
    {packet : ForwardPacket} (h : f.handle now (.timer (.pendingP0 g)) = some (f', acts))
    (hdrop : .drop .routeWaitExpired packet ∈ acts) :
    ∃ batch, f.pendingP0[g]? = some batch ∧ ∃ q ∈ batch.packets, q.packet = packet := by
  have heq : f.handleTimer now (.pendingP0 g) = (f', acts) := Option.some.inj h
  rcases f.handleTimer_cases now g with ⟨acts', hsame, -, -, href⟩ | ⟨batch, hbatch, -, herase⟩
  · rw [hsame] at heq
    cases heq
    have hmem : packet ∈ refused acts := List.mem_filterMap.mpr ⟨_, hdrop, rfl⟩
    rw [href] at hmem
    cases hmem
  · rw [herase] at heq
    cases heq
    obtain ⟨q, hq, hpacket⟩ := List.mem_map.mp hdrop
    cases hpacket
    exact ⟨batch, hbatch, q, hq, rfl⟩

/-- A run reaches `f1`, later `f2`, and there the timer of `g` drops a packet. If every link failed
only while no P0 packet on it had another link, and `g` was parked from `f1` to `f2`, then no
recipient of the packet had a usable route in `f1`. -/
theorem expired_had_no_route {me : NodeId} {routes : RouteTable}
    {before since : List (MonoTime × ForwardEvent)} {f1 f2 f3 : Forwarder}
    {out1 out2 acts : List ForwardAction} {now : MonoTime} {g : Nat} {packet : ForwardPacket}
    (h1 : (new me routes).run before = some (f1, out1)) (h2 : f1.run since = some (f2, out2))
    (hclean : Along (fun f e => f.handle e.1 e.2) (fun f e => f.NoOtherLink e.2) (new me routes)
      (before ++ since))
    (hstay : StaysParked g f1 since)
    (h3 : f2.handle now (.timer (.pendingP0 g)) = some (f3, acts))
    (hdrop : .drop .routeWaitExpired packet ∈ acts) :
    ∃ batch q, f2.pendingP0[g]? = some batch ∧ q ∈ batch.packets ∧ q.packet = packet ∧
      ∀ r ∈ recipients packet, ¬ f1.Usable r q.incoming := by
  have hstuck : f1.Stuck := by
    refine (hclean.append h1).1.inv (fun s e s' out hs hP hstep => hs.step hP hstep) ?_ h1
    intro g batch hg
    simp [new] at hg
  obtain ⟨batch, hbatch, q, hq, rfl⟩ := timer_drops h3 hdrop
  obtain ⟨old, hold, hpart⟩ := part_run hstay h2 hbatch
  refine ⟨batch, q, hbatch, hq, rfl, fun r hr => ?_⟩
  obtain ⟨p, hp, hin, hrec⟩ := hpart q hq
  rw [hin]
  exact hstuck g old hold p hp r (hrec r hr)

/-- A P0 packet from node 1 to node 2 waits on link 7. -/
def urgent : ForwardEvent := .outbound (samplePacket .unicast .p0 .empty (.ofByte 2))

/-- Node 2 behind link 8. -/
def movedRoutes : RouteTable where
  version := 2
  routes := (∅ : OrdMap NodeId Control.Route).insert (.ofByte 2) ⟨8, 2, 2⟩

/-- The route of the packet moves to link 8, then link 7 fails: the packet is parked, and expires
although link 8 is up all the time. -/
theorem expired_with_route : ∃ f out f' acts,
    (new (.ofByte 1) sampleRoutes).run
      [(0, urgent), (1, .routesUpdated movedRoutes), (2, .linkDown 7)] = some (f, out) ∧
    0 ∈ f.pendingP0 ∧ f.Usable (.ofByte 2) none ∧
    f.handle 2002 (.timer (.pendingP0 0)) = some (f', acts) ∧
    ∃ packet, .drop .routeWaitExpired packet ∈ acts ∧ recipients packet = [.ofByte 2] := by
  have h : (((new (.ofByte 1) sampleRoutes).run
      [(0, urgent), (1, .routesUpdated movedRoutes), (2, .linkDown 7)]).bind fun r =>
      (r.1.handle 2002 (.timer (.pendingP0 0))).map fun s =>
        decide (0 ∈ r.1.pendingP0 ∧ r.1.Usable (.ofByte 2) none ∧
          ∃ packet ∈ refused s.2, .drop .routeWaitExpired packet ∈ s.2 ∧
            recipients packet = [.ofByte 2])) = some true := by decide +kernel
  simp only [Option.bind_eq_some_iff, Option.map_eq_some_iff] at h
  obtain ⟨⟨f, out⟩, hrun, ⟨f', acts⟩, hstep, hall⟩ := h
  obtain ⟨hmem, husable, packet, -, hdrop⟩ := of_decide_eq_true hall
  exact ⟨f, out, f', acts, hrun, hmem, husable, hstep, packet, hdrop⟩

/-- Link 7 fails while it is the only way to node 2. -/
theorem expired_had_no_route_stranded : ∃ f out f' acts packet,
    (new (.ofByte 1) sampleRoutes).run [(0, urgent), (2, .linkDown 7)] = some (f, out) ∧
    f.handle 2002 (.timer (.pendingP0 0)) = some (f', acts) ∧
    .drop .routeWaitExpired packet ∈ acts ∧
    ∃ batch q, f.pendingP0[0]? = some batch ∧ q ∈ batch.packets ∧ q.packet = packet ∧
      ∀ r ∈ recipients packet, ¬ f.Usable r q.incoming := by
  have h : (((new (.ofByte 1) sampleRoutes).run [(0, urgent), (2, .linkDown 7)]).bind fun r =>
      (r.1.handle 2002 (.timer (.pendingP0 0))).map fun s =>
        decide (∃ packet ∈ refused s.2, .drop .routeWaitExpired packet ∈ s.2)) = some true := by
    decide +kernel
  simp only [Option.bind_eq_some_iff, Option.map_eq_some_iff] at h
  obtain ⟨⟨f, out⟩, hrun, ⟨f', acts⟩, hstep, hall⟩ := h
  obtain ⟨packet, -, hdrop⟩ := of_decide_eq_true hall
  refine ⟨f, out, f', acts, packet, hrun, hstep, hdrop, ?_⟩
  have hsince : f.run [] = some (f, []) := rfl
  exact expired_had_no_route hrun hsince (by decide +kernel) trivial hstep hdrop

end Forwarder
end Forward
end MeshBus
