import MeshBus.Forward.Conservation

/-!
# Forward.Multicast

Multicast routing agrees with unicast, recipient by recipient (`multicast_agrees`).

The source has the routing rule four times: `forward_unicast`, `forward_multicast`,
`reroute_unicast` and `reroute_multicast`. What the two multicast functions do is here a list of
actions, carried out one after the other (`perform`): a `send` is a call of `enqueue`, every other
action is emitted. In that list every recipient is named once, by an action with the decision a
unicast packet to it would get.
-/

namespace MeshBus
namespace Forward

open Wire

/-- The packet as a unicast packet to `d`. -/
def unicastTo (packet : ForwardPacket) (d : NodeId) : ForwardPacket :=
  { packet with
    header := { packet.header with packetType := .unicast, destination := d }
    multicastDestinations := [] }

/-- What an action decides about the recipients of its packet, and the ttl the packet has then. -/
def ForwardAction.decision : ForwardAction → Option (Fate × UInt8)
  | .deliverLocal packet => some (.here, packet.header.ttl)
  | .drop .noRoute packet => some (.noRoute, packet.header.ttl)
  | .drop .loopDetected packet => some (.looped, packet.header.ttl)
  | .send link packet => some (.via link, packet.header.ttl)
  | _ => none

/-- An action on a multicast packet is about recipient `d`. -/
def ForwardAction.isFor (d : NodeId) : ForwardAction → Bool
  | .deliverLocal packet => packet.header.destination = d
  | .drop _ packet => d ∈ packet.multicastDestinations
  | .send _ packet => d ∈ packet.multicastDestinations
  | _ => false

/-- The drop of a list that `MulticastPayload::new` refuses. -/
def ForwardAction.isInvalid : ForwardAction → Bool
  | .drop (.invalidMulticast _) _ => true
  | _ => false

/-- The decisions on recipient `d`. -/
def decisionsFor (d : NodeId) (actions : List ForwardAction) : List (Option (Fate × UInt8)) :=
  (actions.filter fun a => a.isFor d).map ForwardAction.decision

@[simp] theorem decisionsFor_append (d : NodeId) (a b : List ForwardAction) :
    decisionsFor d (a ++ b) = decisionsFor d a ++ decisionsFor d b := by
  simp [decisionsFor]

/-- The links a list of actions sends on. -/
def sendLinks (actions : List ForwardAction) : List LinkId :=
  actions.filterMap fun
    | .send link _ => some link
    | _ => none

@[simp] theorem sendLinks_append (a b : List ForwardAction) :
    sendLinks (a ++ b) = sendLinks a ++ sendLinks b := List.filterMap_append

namespace Forwarder

/-- Carries out one action. -/
def perform (incoming : Option LinkId) (f : Forwarder) :
    ForwardAction → Option (Forwarder × List ForwardAction)
  | .send link packet => f.enqueue link packet incoming
  | action => some (f, [action])

/-- The calls of `enqueue` come after all other actions. -/
theorem perform_all {incoming : Option LinkId} {f : Forwarder}
    {bs : List (LinkId × ForwardPacket)} :
    ∀ {actions : List ForwardAction}, sendLinks actions = [] →
    emitAll (perform incoming) f (actions ++ bs.map fun b => .send b.1 b.2) =
      (f.enqueueAll incoming bs).map fun r => (r.1, actions ++ r.2) := by
  intro actions
  induction actions with
  | nil =>
    intro _
    rw [List.nil_append, emitAll_map, enqueueAll]
    simp only [perform, List.nil_append, Prod.mk.eta, Option.map_id']
  | cons a actions ih =>
    intro h
    have hperform : f.perform incoming a = some (f, [a]) := by
      cases a with
      | send link packet => simp [sendLinks] at h
      | deliverLocal _ | drop _ _ | backpressure _ _ | setTimer _ _ => rfl
    have hrest : sendLinks actions = [] := by
      cases a with
      | send link packet => simp [sendLinks] at h
      | deliverLocal _ | drop _ _ | backpressure _ _ | setTimer _ _ => exact h
    rw [List.cons_append, emitAll, hperform]
    simp only [ih hrest]
    cases f.enqueueAll incoming bs <;> rfl

/-! ## Who is named where -/

section Decisions

variable {f : Forwarder} {fates : NodeId → Fate} {packet : ForwardPacket} {ds : List NodeId}
  {d : NodeId} {ttl : UInt8}

theorem decisionsFor_localActs (hm : packet.header.packetType = .multicast) (hd : d ∈ ds)
    (hhere : ∀ d, fates d = .here ↔ d = f.me) :
    decisionsFor d (f.localActs fates packet ds) =
      if fates d = .here then [some (.here, packet.header.ttl)] else [] := by
  rw [localActs, Split.of_deliverLocal]
  by_cases h : fates d = .here
  · have hmem : d ∈ Split.group fates ds .here := Split.mem_group.mpr ⟨hd, h⟩
    have hme : f.me = d := ((hhere d).mp h).symm
    have hne := List.ne_nil_of_mem hmem
    rw [if_pos h, if_pos (by simpa using hne)]
    simp [decisionsFor, ForwardAction.isFor, ForwardAction.decision, localOf, hm, localCopy, hme]
  · have hme : f.me ≠ d := fun heq => h ((hhere d).mpr heq.symm)
    rw [if_neg h]
    split
    · simp [decisionsFor, ForwardAction.isFor, localOf, hm, localCopy, hme]
    · rfl

theorem decisionsFor_dropActs (hm : packet.header.packetType = .multicast) (hd : d ∈ ds)
    (reason : DropReason) (fate : Fate) :
    decisionsFor d (dropActs reason packet (Split.group fates ds fate)) =
      if fates d = fate then
        [ForwardAction.decision (.drop reason (copyFor packet (Split.group fates ds fate)
          packet.header.ttl))] else [] := by
  by_cases h : fates d = fate
  · have hmem : d ∈ Split.group fates ds fate := Split.mem_group.mpr ⟨hd, h⟩
    have hne := List.ne_nil_of_mem hmem
    rw [if_pos h, dropActs, if_neg (by simpa using hne)]
    simp [decisionsFor, ForwardAction.isFor, copyFor, hm, hmem]
  · have hmem : d ∉ Split.group fates ds fate := fun hmem => h (Split.mem_group.mp hmem).2
    rw [if_neg h, dropActs]
    split
    · rfl
    · simp [decisionsFor, ForwardAction.isFor, copyFor, hm, hmem]

/-- A recipient is in the branch of its link, and in no other. -/
theorem decisionsFor_branches (hm : packet.header.packetType = .multicast) (hd : d ∈ ds) :
    decisionsFor d ((branches fates packet ds ttl).map fun b => .send b.1 b.2) =
      match fates d with
      | .via link => [some (.via link, ttl)]
      | _ => [] := by
  have hisFor : ∀ b ∈ branches fates packet ds ttl,
      ((ForwardAction.send b.1 b.2).isFor d = true ↔ fates d = .via b.1) := by
    rintro ⟨link, copy⟩ hb
    obtain ⟨-, rfl⟩ := mem_branches.mp hb
    simp [ForwardAction.isFor, copyFor, hm, Split.mem_group, hd]
  have hfilter : decisionsFor d ((branches fates packet ds ttl).map fun b => .send b.1 b.2) =
      ((branches fates packet ds ttl).filter fun b => fates d = .via b.1).map fun b =>
        ForwardAction.decision (.send b.1 b.2) := by
    rw [decisionsFor, List.filter_map, List.map_map]
    refine congrArg _ (List.filter_congr fun b hb => ?_)
    rw [Bool.eq_iff_iff, decide_eq_true_eq]
    exact hisFor b hb
  rw [hfilter]
  cases hfate : fates d with
  | via link =>
    have hmem : d ∈ Split.group fates ds (.via link) := Split.mem_group.mpr ⟨hd, hfate⟩
    have hlink : (fun b : LinkId × ForwardPacket => decide (Fate.via link = Fate.via b.1)) =
        fun b => decide (b.1 = link) := by
      funext b
      simp [eq_comm]
    rw [hlink, branches_on, if_neg (List.ne_nil_of_mem hmem)]
    simp [ForwardAction.decision]
  | here | noRoute | looped => simp

theorem sendLinks_localActs : sendLinks (f.localActs fates packet ds) = [] := by
  rw [localActs]
  split <;> rfl

theorem sendLinks_dropActs (reason : DropReason) : sendLinks (dropActs reason packet ds) = [] := by
  rw [dropActs]
  split <;> rfl

theorem sendLinks_branches :
    (sendLinks ((branches fates packet ds ttl).map fun b => .send b.1 b.2)).Nodup := by
  have hlinks : sendLinks ((branches fates packet ds ttl).map fun b => .send b.1 b.2) =
      (branches fates packet ds ttl).map Prod.fst := by
    rw [sendLinks, List.filterMap_map, ← List.filterMap_eq_map]
    rfl
  rw [hlinks]
  exact branches_keys_nodup

/-- Nobody is named who is not a recipient. -/
theorem mem_of_isFor_localActs (hm : packet.header.packetType = .multicast)
    (hhere : ∀ d, fates d = .here ↔ d = f.me) :
    ∀ a ∈ f.localActs fates packet ds, a.isFor d = true → d ∈ ds := by
  intro a ha hfor
  rw [localActs, Split.of_deliverLocal] at ha
  split at ha
  · rename_i hne
    rw [List.mem_singleton.mp ha] at hfor
    have hme : f.me = d := by simpa [ForwardAction.isFor, localOf, hm, localCopy] using hfor
    obtain ⟨d', hd'⟩ := List.exists_mem_of_ne_nil _ (by simpa using hne)
    obtain ⟨hmem, hfate⟩ := Split.mem_group.mp hd'
    rw [← hme, ← (hhere d').mp hfate]
    exact hmem
  · cases ha

theorem mem_of_isFor_dropActs (hm : packet.header.packetType = .multicast) {g : List NodeId}
    (hg : g.Sublist ds) (reason : DropReason) :
    ∀ a ∈ dropActs reason packet g, a.isFor d = true → d ∈ ds := by
  intro a ha hfor
  rw [dropActs] at ha
  split at ha
  · cases ha
  · rw [List.mem_singleton.mp ha] at hfor
    exact hg.subset (by simpa [ForwardAction.isFor, copyFor, hm] using hfor)

theorem mem_of_isFor_branches (hm : packet.header.packetType = .multicast) :
    ∀ a ∈ (branches fates packet ds ttl).map (fun b => ForwardAction.send b.1 b.2),
      a.isFor d = true → d ∈ ds := by
  intro a ha hfor
  obtain ⟨⟨link, copy⟩, hb, rfl⟩ := List.mem_map.mp ha
  obtain ⟨-, rfl⟩ := mem_branches.mp hb
  have hmem : d ∈ Split.group fates ds (.via link) := by
    simpa [ForwardAction.isFor, copyFor, hm] using hfor
  exact (Split.mem_group.mp hmem).1

end Decisions

/-! ## Agreement -/

/-- A list of actions that treats every recipient of a multicast packet once, and nobody else. -/
structure Fair (ds : List NodeId) (actions : List ForwardAction) : Prop where
  /-- One branch per link. -/
  links : (sendLinks actions).Nodup
  only : ∀ a ∈ actions, ∀ d, a.isFor d = true → d ∈ ds

/-- The three things a reroute does with recipient `d`, to a unicast packet and to a multicast
packet that leads to `actions` and leaves `left`. -/
inductive RerouteAgrees (f : Forwarder) (queued : QueuedPacket) (actions : List ForwardAction)
    (left : List QueuedPacket) (d : NodeId) : Prop
  | here
      (unicast : f.rerouteUnicast ⟨queued.incoming, unicastTo queued.packet d⟩ =
        some (f, [.deliverLocal (unicastTo queued.packet d)], []))
      (multicast : decisionsFor d actions = [some (.here, queued.packet.header.ttl)])
      (resolved : ∀ q ∈ left, d ∉ q.packet.multicastDestinations)
  | via (link : LinkId)
      (unicast : f.rerouteUnicast ⟨queued.incoming, unicastTo queued.packet d⟩ =
        (f.enqueue link (unicastTo queued.packet d) queued.incoming).map fun r => (r.1, r.2, []))
      (multicast : decisionsFor d actions = [some (.via link, queued.packet.header.ttl)])
      (resolved : ∀ q ∈ left, d ∉ q.packet.multicastDestinations)
  | unresolved (q : QueuedPacket)
      (unicast : f.rerouteUnicast ⟨queued.incoming, unicastTo queued.packet d⟩ =
        some (f, [], [⟨queued.incoming, unicastTo queued.packet d⟩]))
      (multicast : decisionsFor d actions = [])
      (kept : left = [q]) (named : d ∈ q.packet.multicastDestinations)
      (incoming : q.incoming = queued.incoming)
      (ttl : q.packet.header.ttl = queued.packet.header.ttl)

theorem accepted_of_new {packet : ForwardPacket} {m : MulticastPayload}
    (hm : packet.header.packetType = .multicast)
    (hnew : MulticastPayload.new packet.multicastDestinations packet.payload = .ok m) :
    accepted packet = some m.destinations := by
  simp [accepted, hm, hnew]

theorem forward_agrees (f : Forwarder) (incoming : Option LinkId) {packet : ForwardPacket}
    {ds : List NodeId} (hm : packet.header.packetType = .multicast)
    (httl : packet.header.ttl ≠ 0) (hds : accepted packet = some ds) :
    ∃ actions, f.processPacket incoming packet = emitAll (perform incoming) f actions ∧
      Fair ds actions ∧ ∀ d ∈ ds, ∃ action,
        f.forwardUnicast incoming (unicastTo packet d) = some action ∧
        f.processPacket incoming (unicastTo packet d) = f.perform incoming action ∧
        action.decision.isSome ∧
        (∀ link p, action = .send link p → p.header.ttl = packet.header.ttl - 1) ∧
        decisionsFor d actions = [action.decision] := by
  have hhere : ∀ d, f.fate incoming d = .here ↔ d = f.me := fun d => fate_here
  refine ⟨f.localActs (f.fate incoming) packet ds ++
    dropActs .noRoute packet (Split.of (f.fate incoming) ds).noRoute ++
    dropActs .loopDetected packet (Split.of (f.fate incoming) ds).looped ++
    (branches (f.fate incoming) packet ds (packet.header.ttl - 1)).map fun b => .send b.1 b.2,
    ?_, ⟨?_, ?_⟩, ?_⟩
  · rw [processPacket_eq httl hds, perform_all]
    simp only [sendLinks_append, sendLinks_localActs, sendLinks_dropActs, List.append_nil]
  · simp only [sendLinks_append, sendLinks_localActs, sendLinks_dropActs, List.nil_append]
    exact sendLinks_branches
  · intro a ha d hfor
    rw [Split.of_noRoute, Split.of_looped] at ha
    simp only [List.mem_append] at ha
    rcases ha with ((ha | ha) | ha) | ha
    · exact mem_of_isFor_localActs hm hhere a ha hfor
    · exact mem_of_isFor_dropActs hm (Split.group_sublist ds _) _ a ha hfor
    · exact mem_of_isFor_dropActs hm (Split.group_sublist ds _) _ a ha hfor
    · exact mem_of_isFor_branches hm a ha hfor
  · intro d hd
    have httl' : (unicastTo packet d).header.ttl ≠ 0 := httl
    have hunicast := f.forwardUnicast_eq incoming httl'
    have hprocess : ∀ action, f.forwardUnicast incoming (unicastTo packet d) = some action →
        f.processPacket incoming (unicastTo packet d) = f.perform incoming action := by
      intro action haction
      rw [processPacket, if_neg httl']
      simp only [unicastTo] at haction ⊢
      simp only [haction, bind, Option.bind_some]
      cases action <;> rfl
    refine ⟨_, hunicast, hprocess _ hunicast, ?_⟩
    rw [Split.of_noRoute, Split.of_looped]
    simp only [decisionsFor_append, decisionsFor_localActs hm hd hhere,
      decisionsFor_dropActs hm hd, decisionsFor_branches hm hd]
    have hdest : (unicastTo packet d).header.destination = d := rfl
    rw [hdest]
    cases hfate : f.fate incoming d with
    | here => simp [ForwardAction.decision, unicastTo]
    | noRoute => simp [ForwardAction.decision, unicastTo]
    | looped => simp [ForwardAction.decision, unicastTo]
    | via link =>
      refine ⟨rfl, ?_, by simp [ForwardAction.decision, unicastTo]⟩
      intro link' p heq
      cases heq
      rfl

theorem reroute_agrees (f : Forwarder) {queued : QueuedPacket} {ds : List NodeId}
    (hm : queued.packet.header.packetType = .multicast) (hds : accepted queued.packet = some ds) :
    ∃ actions left, f.rerouteMulticast queued =
        (emitAll (perform queued.incoming) f actions).map (fun r => (r.1, r.2, left)) ∧
      Fair ds actions ∧ ∀ d ∈ ds, RerouteAgrees f queued actions left d := by
  have hhere : ∀ d, f.rerouteFate queued.incoming d = .here ↔ d = f.me :=
    fun d => rerouteFate_here
  refine ⟨f.localActs (f.rerouteFate queued.incoming) queued.packet ds ++
    (branches (f.rerouteFate queued.incoming) queued.packet ds queued.packet.header.ttl).map
      fun b => .send b.1 b.2, leftOver (f.rerouteFate queued.incoming) queued ds, ?_, ⟨?_, ?_⟩, ?_⟩
  · have heq : f.rerouteMulticast queued = f.rerouteQueued queued := by
      simp only [rerouteQueued, hm]
    rw [heq, rerouteQueued_eq hds, perform_all sendLinks_localActs, Option.map_map]
    rfl
  · simp only [sendLinks_append, sendLinks_localActs, List.nil_append]
    exact sendLinks_branches
  · intro a ha d hfor
    rcases List.mem_append.mp ha with ha | ha
    · exact mem_of_isFor_localActs hm hhere a ha hfor
    · exact mem_of_isFor_branches hm a ha hfor
  · intro d hd
    have hdecisions := decisionsFor_append d
      (f.localActs (f.rerouteFate queued.incoming) queued.packet ds)
      ((branches (f.rerouteFate queued.incoming) queued.packet ds queued.packet.header.ttl).map
        fun b => .send b.1 b.2)
    rw [decisionsFor_localActs hm hd hhere, decisionsFor_branches hm hd] at hdecisions
    have hleft : ∀ q ∈ leftOver (f.rerouteFate queued.incoming) queued ds,
        d ∈ q.packet.multicastDestinations → f.rerouteFate queued.incoming d = .noRoute := by
      intro q hq hmem
      rw [leftOver, Split.of_noRoute] at hq
      split at hq
      · cases hq
      · rw [List.mem_singleton.mp hq] at hmem
        simp only [copyFor, hm, if_true] at hmem
        exact (Split.mem_group.mp hmem).2
    by_cases hme : d = f.me
    · have hfate := (hhere d).mpr hme
      rw [hfate] at hdecisions
      refine .here ?_ hdecisions fun q hq hmem => ?_
      · simp [rerouteUnicast, unicastTo, hme]
      · rw [hleft q hq hmem] at hfate
        cases hfate
    · cases hlink : f.rerouteLink d queued.incoming with
      | some link =>
        have hfate : f.rerouteFate queued.incoming d = .via link := by
          simp [rerouteFate, hme, hlink]
        rw [hfate] at hdecisions
        refine .via link ?_ hdecisions fun q hq hmem => ?_
        · simp only [rerouteUnicast, unicastTo, if_neg hme, hlink, Option.map_eq_bind]
          rfl
        · rw [hleft q hq hmem] at hfate
          cases hfate
      | none =>
        have hfate : f.rerouteFate queued.incoming d = .noRoute := by
          simp [rerouteFate, hme, hlink]
        have hmem : d ∈ Split.group (f.rerouteFate queued.incoming) ds .noRoute :=
          Split.mem_group.mpr ⟨hd, hfate⟩
        rw [hfate] at hdecisions
        refine .unresolved ⟨queued.incoming, copyFor queued.packet
          (Split.group (f.rerouteFate queued.incoming) ds .noRoute) queued.packet.header.ttl⟩
          ?_ hdecisions ?_ ?_ rfl (copyFor_ttl ..)
        · simp only [rerouteUnicast, unicastTo, if_neg hme, hlink]
        · rw [leftOver, Split.of_noRoute, if_neg (by simpa using List.ne_nil_of_mem hmem)]
        · simpa [copyFor, hm] using hmem

/-! ## The order of the list -/

/-- The packet with its destinations listed in another order. -/
def relisted (packet : ForwardPacket) (ds : List NodeId) : ForwardPacket :=
  { packet with multicastDestinations := ds }

theorem processPacket_relisted (f : Forwarder) (incoming : Option LinkId) {packet : ForwardPacket}
    {m : MulticastPayload} (hm : packet.header.packetType = .multicast)
    (httl : packet.header.ttl ≠ 0)
    (hnew : MulticastPayload.new packet.multicastDestinations packet.payload = .ok m)
    {ds : List NodeId} (hperm : ds.Perm packet.multicastDestinations) :
    f.processPacket incoming (relisted packet ds) = f.processPacket incoming packet := by
  have hforward : f.forwardMulticast incoming (relisted packet ds) =
      f.forwardMulticast incoming packet := by
    have hnew' := MulticastPayload.new_perm hperm hnew
    simp only [forwardMulticast, relisted, hnew, hnew']
    rfl
  have httl' : (relisted packet ds).header.ttl ≠ 0 := httl
  have hm' : (relisted packet ds).header.packetType = .multicast := hm
  simp only [processPacket, if_neg httl, if_neg httl', hm, hm', hforward]

theorem rerouteMulticast_relisted (f : Forwarder) (incoming : Option LinkId)
    {packet : ForwardPacket} {m : MulticastPayload}
    (hnew : MulticastPayload.new packet.multicastDestinations packet.payload = .ok m)
    {ds : List NodeId} (hperm : ds.Perm packet.multicastDestinations) :
    f.rerouteMulticast ⟨incoming, relisted packet ds⟩ = f.rerouteMulticast ⟨incoming, packet⟩ := by
  have hnew' := MulticastPayload.new_perm hperm hnew
  simp only [rerouteMulticast, relisted, hnew, hnew']
  rfl

/-- For every state, every link or none that the packet came from, and every multicast packet with
a valid destination list: each recipient gets the decision that a unicast packet to it with the
same header gets, all recipients on one link share one branch, and the order of the list makes no
difference. The same is true when the packet is queued and rerouted. -/
theorem multicast_agrees (f : Forwarder) (incoming : Option LinkId) {packet : ForwardPacket}
    {m : MulticastPayload} (hm : packet.header.packetType = .multicast)
    (hnew : MulticastPayload.new packet.multicastDestinations packet.payload = .ok m) :
    (packet.header.ttl ≠ 0 → ∃ actions,
      f.processPacket incoming packet = emitAll (perform incoming) f actions ∧
      Fair packet.multicastDestinations actions ∧
      ∀ d ∈ packet.multicastDestinations, ∃ action,
        f.forwardUnicast incoming (unicastTo packet d) = some action ∧
        f.processPacket incoming (unicastTo packet d) = f.perform incoming action ∧
        action.decision.isSome ∧
        (∀ link p, action = .send link p → p.header.ttl = packet.header.ttl - 1) ∧
        decisionsFor d actions = [action.decision]) ∧
    (∃ actions left, f.rerouteMulticast ⟨incoming, packet⟩ =
        (emitAll (perform incoming) f actions).map (fun r => (r.1, r.2, left)) ∧
      Fair packet.multicastDestinations actions ∧
      ∀ d ∈ packet.multicastDestinations, RerouteAgrees f ⟨incoming, packet⟩ actions left d) ∧
    ∀ ds : List NodeId, ds.Perm packet.multicastDestinations →
      (packet.header.ttl ≠ 0 →
        f.processPacket incoming (relisted packet ds) = f.processPacket incoming packet) ∧
      f.processOutboundMulticast ds packet =
        f.processOutboundMulticast packet.multicastDestinations packet ∧
      f.rerouteMulticast ⟨incoming, relisted packet ds⟩ =
        f.rerouteMulticast ⟨incoming, packet⟩ := by
  have hds := accepted_of_new hm hnew
  have hmem : ∀ d, d ∈ m.destinations ↔ d ∈ packet.multicastDestinations := fun d => by
    rw [(MulticastPayload.new_ok hnew).1]
    exact (List.perm_insertionSort _ _).mem_iff
  have hfair : ∀ {actions}, Fair m.destinations actions →
      Fair packet.multicastDestinations actions :=
    fun h => ⟨h.links, fun a ha d hfor => (hmem d).mp (h.only a ha d hfor)⟩
  refine ⟨fun httl => ?_, ?_, fun ds hperm => ⟨fun httl => ?_, ?_, ?_⟩⟩
  · obtain ⟨actions, hprocess, hf, hall⟩ := f.forward_agrees incoming hm httl hds
    exact ⟨actions, hprocess, hfair hf, fun d hd => hall d ((hmem d).mpr hd)⟩
  · have hagrees := @reroute_agrees f ⟨incoming, packet⟩ m.destinations hm hds
    obtain ⟨actions, left, hreroute, hf, hall⟩ := hagrees
    exact ⟨actions, left, hreroute, hfair hf, fun d hd => hall d ((hmem d).mpr hd)⟩
  · exact f.processPacket_relisted incoming hm httl hnew hperm
  · have hnew' := MulticastPayload.new_perm hperm hnew
    simp only [processOutboundMulticast, hnew, hnew']
  · exact f.rerouteMulticast_relisted incoming hnew hperm

/-- A packet of node 1 to nodes 1 to 4, listed out of order. -/
def sampleMulticast : ForwardPacket :=
  relisted (samplePacket .multicast .p0 .empty default)
    [.ofByte 3, .ofByte 2, .ofByte 1, .ofByte 4]

/-- Node 2 gets its branch on link 7. -/
theorem multicast_agrees_fanOut : ∃ m actions,
    MulticastPayload.new sampleMulticast.multicastDestinations sampleMulticast.payload = .ok m ∧
    (new (.ofByte 1) sampleRoutes).processPacket none sampleMulticast =
      emitAll (perform none) (new (.ofByte 1) sampleRoutes) actions ∧
    decisionsFor (.ofByte 2) actions = [some (.via 7, 7)] := by
  have hvalid : (match MulticastPayload.new sampleMulticast.multicastDestinations
      sampleMulticast.payload with
    | .ok _ => true
    | .error _ => false) = true := by
    decide +kernel
  split at hvalid
  · rename_i m hnew
    obtain ⟨actions, hprocess, -, hall⟩ :=
      (multicast_agrees (new (.ofByte 1) sampleRoutes) none rfl hnew).1 (by decide)
    obtain ⟨action, haction, -, -, -, hdecision⟩ := hall (.ofByte 2) (by decide)
    have hroute : ((new (.ofByte 1) sampleRoutes).forwardUnicast none
        (unicastTo sampleMulticast (.ofByte 2))).map ForwardAction.decision =
          some (some (.via 7, 7)) := by
      decide +kernel
    rw [haction] at hroute
    rw [Option.some.inj hroute] at hdecision
    exact ⟨m, actions, hnew, hprocess, hdecision⟩
  · cases hvalid

/-! ## Lists that are accepted -/

theorem trySendOne_valid {f f' : Forwarder} {link : LinkId} {acts : List ForwardAction}
    (h : f.trySendOne link = some (f', acts)) : ∀ a ∈ acts, a.isInvalid = false := by
  simp only [trySendOne] at h
  split at h
  · cases h
    simp
  · split at h
    · cases h
    · rename_i state' sent _
      cases h
      cases sent with
      | none => simp
      | some queued => simp [ForwardAction.isInvalid]

theorem enqueue_valid {f f' : Forwarder} {link : LinkId} {packet : ForwardPacket}
    {incoming : Option LinkId} {acts : List ForwardAction}
    (h : f.enqueue link packet incoming = some (f', acts)) : ∀ a ∈ acts, a.isInvalid = false := by
  simp only [enqueue] at h
  split at h
  · cases h
    simp [ForwardAction.isInvalid]
  · split at h
    · exact trySendOne_valid h
    · split at h
      · cases h
        split <;> simp [ForwardAction.isInvalid]
      · exact trySendOne_valid h

theorem processPacket_valid {f f' : Forwarder} {incoming : Option LinkId} {packet : ForwardPacket}
    {ds : List NodeId} {acts : List ForwardAction} (hds : accepted packet = some ds)
    (h : f.processPacket incoming packet = some (f', acts)) : ∀ a ∈ acts, a.isInvalid = false := by
  by_cases httl : packet.header.ttl = 0
  · rw [processPacket, if_pos httl] at h
    cases h
    simp [ForwardAction.isInvalid]
  · rw [processPacket_eq httl hds] at h
    obtain ⟨⟨f1, out⟩, hout, heq⟩ := Option.map_eq_some_iff.mp h
    cases heq
    have hlocal : ∀ a ∈ f.localActs (f.fate incoming) packet ds, a.isInvalid = false := by
      rw [localActs]
      split <;> simp [ForwardAction.isInvalid]
    have hnone : ∀ g, ∀ a ∈ dropActs .noRoute packet g, a.isInvalid = false := by
      intro g
      rw [dropActs]
      split <;> simp [ForwardAction.isInvalid]
    have hloop : ∀ g, ∀ a ∈ dropActs .loopDetected packet g, a.isInvalid = false := by
      intro g
      rw [dropActs]
      split <;> simp [ForwardAction.isInvalid]
    have hsent : ∀ a ∈ out, a.isInvalid = false :=
      (emitAll_out (P := fun _ => True) (R := fun _ => True)
        (fun _ _ _ _ _ _ hstep => ⟨trivial, enqueue_valid hstep⟩) (fun _ _ => trivial) trivial
        hout).2
    simp only [List.forall_mem_append]
    exact ⟨⟨⟨hlocal, hnone _⟩, hloop _⟩, hsent⟩

/-- A multicast whose list `MulticastPayload::new` accepts is not dropped as invalid. -/
theorem outboundMulticast_valid {f f' : Forwarder} {now : MonoTime} {ds : List NodeId}
    {packet : ForwardPacket} {m : MulticastPayload} {acts : List ForwardAction}
    (hnew : MulticastPayload.new ds packet.payload = .ok m)
    (h : f.handle now (.outboundMulticast ds packet) = some (f', acts)) :
    ∀ a ∈ acts, a.isInvalid = false := by
  simp only [handle, processOutboundMulticast, hnew] at h
  exact processPacket_valid (accepted_of_new rfl m.new_self) h

end Forwarder
end Forward
end MeshBus
