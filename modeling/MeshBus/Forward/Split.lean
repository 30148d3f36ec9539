import MeshBus.Forward.Tokens

/-!
# Forward.Split

Every recipient of a packet has a fate at a forwarder: delivered here, no route, looped, or sent on
by a link. Unicast and multicast, first hop and reroute, all do the same with a packet once the
fates are known: they split its recipients by fate (`Split.of`), give each next hop a copy for the
recipients that go there, and deliver, drop or keep the rest. `processPacket_eq` and
`rerouteQueued_eq` state the two entry points in that form.
-/

namespace MeshBus
namespace Forward

open Wire

variable {f : Forwarder} {incoming : Option LinkId} {packet : ForwardPacket}
  {fates : NodeId → Fate} {d : NodeId} {ds : List NodeId}

/-- What a forwarder does with one recipient of a packet. -/
inductive Fate where
  | here
  | noRoute
  | looped
  | via (link : LinkId)
deriving DecidableEq

namespace Forwarder

def fate (f : Forwarder) (incoming : Option LinkId) (d : NodeId) : Fate :=
  if d = f.me then .here
  else
    match f.routes.get d with
    | none => .noRoute
    | some route =>
      if route.nextHop ∈ f.downLinks then .noRoute
      else if incoming = some route.nextHop then .looped
      else .via route.nextHop

/-- On a reroute the incoming link counts as no route. -/
def rerouteFate (f : Forwarder) (incoming : Option LinkId) (d : NodeId) : Fate :=
  if d = f.me then .here
  else
    match f.rerouteLink d incoming with
    | some link => .via link
    | none => .noRoute

theorem fate_here : f.fate incoming d = .here ↔ d = f.me := by
  simp only [fate]
  split
  · simp [*]
  · split
    · simp [*]
    · split
      · simp [*]
      · split <;> simp [*]

theorem rerouteFate_here : f.rerouteFate incoming d = .here ↔ d = f.me := by
  simp only [rerouteFate]
  split
  · simp [*]
  · split <;> simp [*]

theorem fate_via {link : LinkId} (h : f.fate incoming d = .via link) : link ∉ f.downLinks := by
  simp only [fate] at h
  split at h
  · cases h
  · split at h
    · cases h
    · split at h
      · cases h
      · rename_i hup
        split at h
        · cases h
        · cases h
          exact hup

theorem rerouteFate_noRoute (h : f.rerouteFate incoming d = .noRoute) :
    f.rerouteLink d incoming = none := by
  simp only [rerouteFate] at h
  split at h
  · cases h
  · split at h
    · cases h
    · assumption

theorem rerouteFate_ne_looped (f : Forwarder) (incoming : Option LinkId) (d : NodeId) :
    f.rerouteFate incoming d ≠ .looped := by
  simp only [rerouteFate]
  split
  · simp
  · split <;> simp

/-! ## Splitting a list of recipients -/

namespace Split

def place (split : Split) (d : NodeId) : Fate → Split
  | .here => { split with deliverLocal := true }
  | .noRoute => { split with noRoute := split.noRoute ++ [d] }
  | .looped => { split with looped := split.looped ++ [d] }
  | .via link => split.push link d

def of (fates : NodeId → Fate) (ds : List NodeId) : Split :=
  ds.foldl (fun split d => split.place d (fates d)) empty

theorem of_snoc (ds : List NodeId) (d : NodeId) :
    of fates (ds ++ [d]) = (of fates ds).place d (fates d) := by
  rw [of, List.foldl_append]
  rfl

/-- The recipients with one fate. -/
def group (fates : NodeId → Fate) (ds : List NodeId) (fate : Fate) : List NodeId :=
  ds.filter fun d => fates d = fate

theorem group_snoc_eq (ds : List NodeId) {fate : Fate} (h : fates d = fate) :
    group fates (ds ++ [d]) fate = group fates ds fate ++ [d] := by
  simp [group, h]

theorem group_snoc_ne (ds : List NodeId) {fate : Fate} (h : fates d ≠ fate) :
    group fates (ds ++ [d]) fate = group fates ds fate := by
  simp [group, h]

theorem mem_group {fate : Fate} : d ∈ group fates ds fate ↔ d ∈ ds ∧ fates d = fate := by
  simp [group]

theorem group_sublist (ds : List NodeId) (fate : Fate) : (group fates ds fate).Sublist ds :=
  List.filter_sublist

theorem of_noRoute (ds : List NodeId) : (of fates ds).noRoute = group fates ds .noRoute := by
  induction ds using List.reverseRecOn with
  | nil => rfl
  | append_singleton ds d ih =>
    rw [of_snoc]
    by_cases h : fates d = .noRoute
    · rw [group_snoc_eq ds h, h, place, ih]
    · rw [group_snoc_ne ds h, ← ih]
      cases hd : fates d with
      | noRoute => exact absurd hd h
      | here | looped | via => rfl

theorem of_looped (ds : List NodeId) : (of fates ds).looped = group fates ds .looped := by
  induction ds using List.reverseRecOn with
  | nil => rfl
  | append_singleton ds d ih =>
    rw [of_snoc]
    by_cases h : fates d = .looped
    · rw [group_snoc_eq ds h, h, place, ih]
    · rw [group_snoc_ne ds h, ← ih]
      cases hd : fates d with
      | looped => exact absurd hd h
      | here | noRoute | via => rfl

theorem noRoute_sublist (fates : NodeId → Fate) (ds : List NodeId) :
    (of fates ds).noRoute.Sublist ds := by
  rw [of_noRoute]
  exact group_sublist ds _

theorem looped_sublist (fates : NodeId → Fate) (ds : List NodeId) :
    (of fates ds).looped.Sublist ds := by
  rw [of_looped]
  exact group_sublist ds _

theorem of_deliverLocal (ds : List NodeId) :
    (of fates ds).deliverLocal = !(group fates ds .here).isEmpty := by
  induction ds using List.reverseRecOn with
  | nil => rfl
  | append_singleton ds d ih =>
    rw [of_snoc]
    by_cases h : fates d = .here
    · rw [group_snoc_eq ds h, h, place]
      simp
    · rw [group_snoc_ne ds h, ← ih]
      cases hd : fates d with
      | here => exact absurd hd h
      | noRoute | looped | via => rfl

theorem of_byLink (ds : List NodeId) (link : LinkId) :
    (of fates ds).byLink[link]? =
      if group fates ds (.via link) = [] then none else some (group fates ds (.via link)) := by
  induction ds using List.reverseRecOn with
  | nil => rfl
  | append_singleton ds d ih =>
    rw [of_snoc]
    cases hd : fates d with
    | here | noRoute | looped =>
      rw [group_snoc_ne ds (by simp [hd]), ← ih]
      rfl
    | via l =>
      rw [place, push, OrdMap.get_insert]
      by_cases hl : l = link
      · subst hl
        rw [if_pos rfl, ih, group_snoc_eq ds hd]
        by_cases hempty : group fates ds (.via l) = []
        · simp [hempty]
        · simp [hempty]
      · rw [if_neg hl, ih, group_snoc_ne ds (by simp [hd, hl])]

/-- Every recipient is in exactly one group. -/
theorem total_of (ds : List NodeId) :
    ((group fates ds .here : Multiset NodeId) + (of fates ds).noRoute + (of fates ds).looped +
      OrdMap.total (fun _ (l : List NodeId) => (l : Multiset NodeId)) (of fates ds).byLink) =
      (ds : Multiset NodeId) := by
  have hsnoc : ∀ l : List NodeId, ∀ d, ((l ++ [d] : List NodeId) : Multiset NodeId) = l + {d} :=
    fun l d => (Multiset.coe_add l [d]).symm
  induction ds using List.reverseRecOn with
  | nil =>
    simp only [of, List.foldl_nil, empty, OrdMap.total_empty]
    rfl
  | append_singleton ds d ih =>
    rw [hsnoc, ← ih, of_snoc]
    cases hd : fates d with
    | here =>
      rw [group_snoc_eq ds hd, hsnoc, place]
      abel
    | noRoute =>
      rw [group_snoc_ne ds (by simp [hd]), place, hsnoc]
      abel
    | looped =>
      rw [group_snoc_ne ds (by simp [hd]), place, hsnoc]
      abel
    | via link =>
      rw [group_snoc_ne ds (by simp [hd]), place, push, OrdMap.total_push,
        ← Multiset.singleton_add]
      abel

end Split

theorem splitForward_fold (f : Forwarder) (incoming : Option LinkId) (ds : List NodeId) :
    ds.foldl (f.splitForward incoming) Split.empty = Split.of (f.fate incoming) ds := by
  have hstep : f.splitForward incoming = fun split d => split.place d (f.fate incoming d) := by
    funext split d
    simp only [splitForward, fate]
    split
    · rfl
    · cases f.routes.get d with
      | none => rfl
      | some route =>
        simp only
        split
        · rfl
        · split <;> rfl
  rw [hstep, Split.of]

theorem splitReroute_fold (f : Forwarder) (incoming : Option LinkId) (ds : List NodeId) :
    ds.foldl (f.splitReroute incoming) Split.empty = Split.of (f.rerouteFate incoming) ds := by
  have hstep : f.splitReroute incoming =
      fun split d => split.place d (f.rerouteFate incoming d) := by
    funext split d
    simp only [splitReroute, rerouteFate]
    split
    · rfl
    · cases f.rerouteLink d incoming with
      | none => rfl
      | some link => rfl
  rw [hstep, Split.of]

/-! ## Copies for a group of recipients -/

/-- The recipients a packet is accepted with. -/
def accepted (packet : ForwardPacket) : Option (List NodeId) :=
  match packet.header.packetType with
  | .unicast => some [packet.header.destination]
  | .multicast =>
    match MulticastPayload.new packet.multicastDestinations packet.payload with
    | .error _ => none
    | .ok multicast => some multicast.destinations
  | _ => none

def copyFor (packet : ForwardPacket) (ds : List NodeId) (ttl : UInt8) : ForwardPacket :=
  if packet.header.packetType = .multicast then
    { header := { packet.header with destination := default, ttl := ttl }
      multicastDestinations := ds
      payload := packet.payload }
  else { packet with header := { packet.header with ttl := ttl } }

/-- What is delivered at this node. -/
def localOf (f : Forwarder) (packet : ForwardPacket) : ForwardPacket :=
  if packet.header.packetType = .multicast then f.localCopy packet packet.payload else packet

@[simp] theorem copyFor_ident (packet : ForwardPacket) (ds : List NodeId) (ttl : UInt8) :
    ident (copyFor packet ds ttl) = ident packet := by
  rw [copyFor]
  split <;> rfl

@[simp] theorem copyFor_ttl (packet : ForwardPacket) (ds : List NodeId) (ttl : UInt8) :
    (copyFor packet ds ttl).header.ttl = ttl := by
  rw [copyFor]
  split <;> rfl

theorem localOf_ident (f : Forwarder) (packet : ForwardPacket) :
    ident (f.localOf packet) = ident packet := by
  rw [localOf]
  split <;> rfl

theorem accepted_multicast (hm : packet.header.packetType = .multicast)
    (h : accepted packet = some ds) :
    ∃ m : MulticastPayload,
      MulticastPayload.new packet.multicastDestinations packet.payload = .ok m ∧
      m.destinations = ds ∧ m.body = packet.payload := by
  simp only [accepted, hm] at h
  split at h
  · cases h
  · rename_i m hnew
    cases h
    exact ⟨m, hnew, rfl, (MulticastPayload.new_ok hnew).2⟩

theorem accepted_unicast (hm : packet.header.packetType ≠ .multicast)
    (h : accepted packet = some ds) :
    packet.header.packetType = .unicast ∧ ds = [packet.header.destination] := by
  simp only [accepted] at h
  split at h
  · cases h
    exact ⟨by assumption, rfl⟩
  · exact absurd (by assumption) hm
  · cases h

theorem accepted_coe (h : accepted packet = some ds) :
    (ds : Multiset NodeId) = recipients packet := by
  rw [recipients]
  by_cases hm : packet.header.packetType = .multicast
  · obtain ⟨m, hnew, rfl, -⟩ := accepted_multicast hm h
    rw [if_pos hm, (MulticastPayload.new_ok hnew).1]
    exact Multiset.coe_eq_coe.mpr (List.perm_insertionSort _ _)
  · rw [if_neg hm, (accepted_unicast hm h).2]

theorem accepted_nodup (h : accepted packet = some ds) : ds.Nodup := by
  by_cases hm : packet.header.packetType = .multicast
  · obtain ⟨m, -, rfl, -⟩ := accepted_multicast hm h
    exact m.sorted.imp ne_of_lt
  · rw [(accepted_unicast hm h).2]
    exact List.nodup_singleton _

theorem recipients_copyFor {ds g : List NodeId} {ttl : UInt8} (h : accepted packet = some ds)
    (hg : g.Sublist ds) (hne : g ≠ []) : recipients (copyFor packet g ttl) = g := by
  by_cases hm : packet.header.packetType = .multicast
  · simp [recipients, copyFor, hm]
  · rw [(accepted_unicast hm h).2] at hg
    rcases List.sublist_singleton.mp hg with rfl | rfl
    · exact absurd rfl hne
    · simp [recipients, copyFor, hm]

theorem multicastSubsetPacket_eq {template : ForwardPacket} {m : MulticastPayload} {ttl : UInt8}
    (hm : template.header.packetType = .multicast) (hbody : m.body = template.payload)
    (hne : ds ≠ []) (hsub : ds.Sublist m.destinations) :
    multicastSubsetPacket template ds m.body ttl = some (copyFor template ds ttl) := by
  obtain ⟨m', hnew, rfl, hbody'⟩ := m.new_sublist hne hsub
  rw [multicastSubsetPacket, hnew]
  simp only [copyFor, hm, if_true, hbody', hbody]

/-! ## The two entry points -/

def enqueueAll (f : Forwarder) (incoming : Option LinkId)
    (branches : List (LinkId × ForwardPacket)) : Option (Forwarder × List ForwardAction) :=
  emitAll (fun f branch => f.enqueue branch.1 branch.2 incoming) f branches

/-- One copy per next hop. -/
def branches (fates : NodeId → Fate) (packet : ForwardPacket) (ds : List NodeId) (ttl : UInt8) :
    List (LinkId × ForwardPacket) :=
  (Split.of fates ds).byLink.toList.map fun e => (e.1, copyFor packet e.2 ttl)

def localActs (f : Forwarder) (fates : NodeId → Fate) (packet : ForwardPacket)
    (ds : List NodeId) : List ForwardAction :=
  if (Split.of fates ds).deliverLocal then [.deliverLocal (f.localOf packet)] else []

def dropActs (reason : DropReason) (packet : ForwardPacket) (ds : List NodeId) :
    List ForwardAction :=
  if ds.isEmpty then [] else [.drop reason (copyFor packet ds packet.header.ttl)]

/-- What a reroute leaves parked or hands back. -/
def leftOver (fates : NodeId → Fate) (queued : QueuedPacket) (ds : List NodeId) :
    List QueuedPacket :=
  if (Split.of fates ds).noRoute.isEmpty then []
  else [⟨queued.incoming,
    copyFor queued.packet (Split.of fates ds).noRoute queued.packet.header.ttl⟩]

theorem byLink_mem {e : LinkId × List NodeId} (h : e ∈ (Split.of fates ds).byLink.toList) :
    e.2 = Split.group fates ds (.via e.1) ∧ e.2 ≠ [] := by
  obtain ⟨link, g⟩ := e
  rw [OrdMap.mem_toList, Split.of_byLink] at h
  split at h
  · cases h
  · rename_i hne
    cases h
    exact ⟨rfl, hne⟩

theorem enqueueBranches_eq {template : ForwardPacket} {m : MulticastPayload} {ttl : UInt8}
    (hm : template.header.packetType = .multicast) (hbody : m.body = template.payload) :
    f.enqueueBranches template m.body ttl incoming (Split.of fates m.destinations).byLink =
      f.enqueueAll incoming (branches fates template m.destinations ttl) := by
  rw [enqueueBranches, enqueueAll, branches, emitAll_map]
  refine emitAll_congr fun e he s => ?_
  obtain ⟨heq, hne⟩ := byLink_mem he
  have hsub : e.2.Sublist m.destinations := by
    rw [heq]
    exact Split.group_sublist _ _
  rw [multicastSubsetPacket_eq hm hbody hne hsub]
  rfl

theorem dropSubset_eq {template : ForwardPacket} {m : MulticastPayload} (reason : DropReason)
    (hm : template.header.packetType = .multicast) (hbody : m.body = template.payload)
    (hsub : ds.Sublist m.destinations) :
    dropSubset reason template ds m.body = some (dropActs reason template ds) := by
  rw [dropSubset, dropActs]
  split
  · rfl
  · rename_i hne
    rw [multicastSubsetPacket_eq hm hbody (by simpa using hne) hsub]
    rfl

theorem of_single (fates : NodeId → Fate) (d : NodeId) :
    Split.of fates [d] = Split.empty.place d (fates d) := rfl

theorem branches_via {ttl : UInt8} {link : LinkId} (h : fates d = .via link) :
    branches fates packet [d] ttl = [(link, copyFor packet [d] ttl)] := by
  have hsplit : (Split.of fates [d]).byLink =
      (∅ : OrdMap LinkId (List NodeId)).insert link [d] := by
    simp [of_single, h, Split.place, Split.push, Split.empty]
  have hperm := OrdMap.toList_insert_perm (∅ : OrdMap LinkId (List NodeId)) link [d]
  rw [OrdMap.erase_eq_self (by simp), Std.ExtTreeMap.toList_eq_nil_iff.mpr rfl,
    List.perm_singleton] at hperm
  rw [branches, hsplit, hperm]
  rfl

theorem branches_stays {ttl : UInt8} (h : ∀ link, fates d ≠ .via link) :
    branches fates packet [d] ttl = [] := by
  have hsplit : (Split.of fates [d]).byLink = ∅ := by
    rw [of_single]
    cases hd : fates d with
    | via link => exact absurd hd (h link)
    | here | noRoute | looped => rfl
  rw [branches, hsplit, Std.ExtTreeMap.toList_eq_nil_iff.mpr rfl]
  rfl

/-- One enqueue instead of a loop over one branch. -/
theorem enqueueAll_single (f : Forwarder) (incoming : Option LinkId) (link : LinkId)
    (packet : ForwardPacket) :
    f.enqueueAll incoming [(link, packet)] = f.enqueue link packet incoming := by
  simp only [enqueueAll, emitAll]
  cases f.enqueue link packet incoming with
  | none => rfl
  | some r => simp

theorem forwardUnicast_eq (f : Forwarder) (incoming : Option LinkId)
    (httl : packet.header.ttl ≠ 0) :
    f.forwardUnicast incoming packet = some (match f.fate incoming packet.header.destination with
      | .here => .deliverLocal packet
      | .noRoute => .drop .noRoute packet
      | .looped => .drop .loopDetected packet
      | .via link => .send link
          { packet with header := { packet.header with ttl := packet.header.ttl - 1 } }) := by
  simp only [forwardUnicast, fate]
  split
  · rfl
  · cases f.routes.get packet.header.destination with
    | none => rfl
    | some route =>
      simp only
      split
      · rfl
      · split
        · rfl
        · rfl

theorem processPacket_refused (f : Forwarder) (incoming : Option LinkId)
    (h : packet.header.ttl = 0 ∨ accepted packet = none) :
    ∃ reason ≠ .routeWaitExpired,
      f.processPacket incoming packet = some (f, [.drop reason packet]) := by
  rw [processPacket]
  split
  · exact ⟨.ttlExceeded, by simp, rfl⟩
  · rename_i httl
    have hnone := h.resolve_left httl
    simp only [accepted] at hnone
    cases hp : packet.header.packetType with
    | unicast => simp [hp] at hnone
    | multicast =>
      simp only [hp] at hnone
      split at hnone
      · rename_i error herror
        refine ⟨.invalidMulticast error, by simp, ?_⟩
        simp only [forwardMulticast, herror]
      · cases hnone
    | circuitData | circuitControl => exact ⟨.unsupportedPacketType _, by simp, rfl⟩

theorem processPacket_eq (httl : packet.header.ttl ≠ 0) (hds : accepted packet = some ds) :
    f.processPacket incoming packet =
      (f.enqueueAll incoming
        (branches (f.fate incoming) packet ds (packet.header.ttl - 1))).map fun r =>
        (r.1, f.localActs (f.fate incoming) packet ds ++
          dropActs .noRoute packet (Split.of (f.fate incoming) ds).noRoute ++
          dropActs .loopDetected packet (Split.of (f.fate incoming) ds).looped ++ r.2) := by
  rw [processPacket, if_neg httl]
  by_cases hm : packet.header.packetType = .multicast
  · obtain ⟨m, hnew, rfl, hbody⟩ := accepted_multicast hm hds
    simp only [hm, forwardMulticast, hnew, splitForward_fold, bind,
      dropSubset_eq _ hm hbody (Split.noRoute_sublist _ _),
      dropSubset_eq _ hm hbody (Split.looped_sublist _ _), Option.bind_some, if_neg httl,
      enqueueBranches_eq hm hbody]
    simp only [hbody, localActs, localOf, hm, if_true]
    rw [Option.map_eq_bind]
    rfl
  · obtain ⟨hu, rfl⟩ := accepted_unicast hm hds
    simp only [hu, forwardUnicast_eq f incoming httl, bind, Option.bind_some]
    cases hf : f.fate incoming packet.header.destination with
    | here | noRoute | looped =>
      rw [branches_stays (by simp [hf])]
      simp [enqueueAll, of_single, hf, Split.place, Split.empty, localActs, dropActs, localOf,
        copyFor, hm]
    | via link =>
      rw [branches_via hf, enqueueAll_single]
      simp [of_single, hf, Split.place, Split.push, Split.empty, localActs, dropActs, copyFor, hu]

/-- A packet is refused as a whole, or split and passed on. -/
theorem processPacket_cases {f f' : Forwarder} {acts : List ForwardAction}
    (h : f.processPacket incoming packet = some (f', acts)) :
    (∃ reason ≠ .routeWaitExpired, (packet.header.ttl = 0 ∨ accepted packet = none) ∧ f' = f ∧
      acts = [.drop reason packet]) ∨
    ∃ ds out, packet.header.ttl ≠ 0 ∧ accepted packet = some ds ∧
      f.enqueueAll incoming (branches (f.fate incoming) packet ds (packet.header.ttl - 1)) =
        some (f', out) ∧
      acts = f.localActs (f.fate incoming) packet ds ++
        dropActs .noRoute packet (Split.of (f.fate incoming) ds).noRoute ++
        dropActs .loopDetected packet (Split.of (f.fate incoming) ds).looped ++ out := by
  by_cases hrefused : packet.header.ttl = 0 ∨ accepted packet = none
  · obtain ⟨reason, hreason, heq⟩ := processPacket_refused f incoming hrefused
    rw [heq] at h
    cases h
    exact .inl ⟨reason, hreason, hrefused, rfl, rfl⟩
  · rw [not_or] at hrefused
    obtain ⟨ds, hds⟩ := Option.ne_none_iff_exists'.mp hrefused.2
    rw [processPacket_eq hrefused.1 hds] at h
    obtain ⟨⟨f1, out⟩, hout, heq⟩ := Option.map_eq_some_iff.mp h
    cases heq
    exact .inr ⟨ds, out, hrefused.1, hds, hout, rfl⟩

theorem rerouteQueued_refused (f : Forwarder) {queued : QueuedPacket}
    (h : accepted queued.packet = none) :
    ∃ reason ≠ .routeWaitExpired,
      f.rerouteQueued queued = some (f, [.drop reason queued.packet], []) := by
  simp only [accepted] at h
  rw [rerouteQueued]
  cases hp : queued.packet.header.packetType with
  | unicast => simp [hp] at h
  | multicast =>
    simp only [hp] at h
    split at h
    · rename_i error herror
      refine ⟨.invalidMulticast error, by simp, ?_⟩
      simp only [rerouteMulticast, herror]
    · cases h
  | circuitData | circuitControl => exact ⟨.unsupportedPacketType _, by simp, rfl⟩

theorem rerouteQueued_eq {queued : QueuedPacket} (hds : accepted queued.packet = some ds) :
    f.rerouteQueued queued =
      (f.enqueueAll queued.incoming
        (branches (f.rerouteFate queued.incoming) queued.packet ds
          queued.packet.header.ttl)).map fun r =>
        (r.1, f.localActs (f.rerouteFate queued.incoming) queued.packet ds ++ r.2,
          leftOver (f.rerouteFate queued.incoming) queued ds) := by
  rw [rerouteQueued]
  by_cases hm : queued.packet.header.packetType = .multicast
  · obtain ⟨m, hnew, rfl, hbody⟩ := accepted_multicast hm hds
    simp only [hm, rerouteMulticast, hnew, splitReroute_fold, bind, enqueueBranches_eq hm hbody]
    rw [Option.map_eq_bind]
    congr 1
    funext r
    simp only [leftOver, Function.comp_apply]
    split
    · simp only [hbody, localActs, localOf, hm, if_true, Option.bind_some]
    · rename_i hne
      rw [multicastSubsetPacket_eq hm hbody (by simpa using hne) (Split.noRoute_sublist _ _)]
      simp only [hbody, localActs, localOf, hm, if_true, Option.bind_some]
  · obtain ⟨hu, rfl⟩ := accepted_unicast hm hds
    simp only [hu, rerouteUnicast]
    by_cases hme : queued.packet.header.destination = f.me
    · have hf : f.rerouteFate queued.incoming queued.packet.header.destination = .here :=
        rerouteFate_here.mpr hme
      rw [branches_stays (by simp [hf]), if_pos hme]
      simp [enqueueAll, of_single, hf, Split.place, Split.empty, localActs, leftOver, localOf, hm]
    · rw [if_neg hme]
      cases hl : f.rerouteLink queued.packet.header.destination queued.incoming with
      | none =>
        have hf : f.rerouteFate queued.incoming queued.packet.header.destination = .noRoute := by
          simp [rerouteFate, hme, hl]
        rw [branches_stays (by simp [hf])]
        simp [enqueueAll, of_single, hf, Split.place, Split.empty, localActs, leftOver, copyFor, hm]
      | some link =>
        have hf : f.rerouteFate queued.incoming queued.packet.header.destination = .via link := by
          simp [rerouteFate, hme, hl]
        rw [branches_via hf, enqueueAll_single]
        simp only [bind, of_single, hf, Split.place, Split.push, Split.empty, localActs, leftOver,
          copyFor, if_neg hm]
        rw [Option.map_eq_bind]
        rfl

theorem rerouteQueued_cases {f f' : Forwarder} {queued : QueuedPacket} {acts : List ForwardAction}
    {left : List QueuedPacket} (h : f.rerouteQueued queued = some (f', acts, left)) :
    (∃ reason ≠ .routeWaitExpired, accepted queued.packet = none ∧ f' = f ∧
      acts = [.drop reason queued.packet] ∧ left = []) ∨
    ∃ ds out, accepted queued.packet = some ds ∧
      f.enqueueAll queued.incoming (branches (f.rerouteFate queued.incoming) queued.packet ds
        queued.packet.header.ttl) = some (f', out) ∧
      acts = f.localActs (f.rerouteFate queued.incoming) queued.packet ds ++ out ∧
      left = leftOver (f.rerouteFate queued.incoming) queued ds := by
  cases hds : accepted queued.packet with
  | none =>
    obtain ⟨reason, hreason, heq⟩ := rerouteQueued_refused f hds
    rw [heq] at h
    cases h
    exact .inl ⟨reason, hreason, rfl, rfl, rfl, rfl⟩
  | some ds =>
    rw [rerouteQueued_eq hds] at h
    obtain ⟨⟨f1, out⟩, hout, heq⟩ := Option.map_eq_some_iff.mp h
    cases heq
    exact .inr ⟨ds, out, rfl, hout, rfl, rfl⟩

end Forwarder
end Forward
end MeshBus
