import MeshBus.Control.Lsa
import MeshBus.Forward.Queues
import MeshBus.Lib.Emit

/-!
# Forward.Forwarder

The overlay forwarder (`mb-forward`) as a state machine: `handle f now event` is the next state
and the list of actions; `none` is a panic of the source, or one of its loops not ending.

`conflated` is a history variable, not a field of the source: every replacement of a queued packet
by a newer one with the same conflation key is appended to it, and no function reads it.
-/

namespace MeshBus
namespace Forward

open Wire
open Control (RouteTable)

def p0RouteWaitMs : Nat := 2000

inductive DropReason where
  | ttlExceeded
  | noRoute
  | loopDetected
  | linkDown
  | routeWaitExpired
  | invalidMulticast (error : MulticastPayloadError)
  | unsupportedPacketType (packetType : PacketType)
  | queueFull (priority : Priority)
deriving DecidableEq

inductive ForwardTimer where
  | pendingP0 (generation : Nat)
deriving DecidableEq

inductive ForwardEvent where
  | outbound (packet : ForwardPacket)
  | outboundMulticast (destinations : List NodeId) (packet : ForwardPacket)
  | inbound (link : LinkId) (packet : ForwardPacket)
  | routesUpdated (routes : RouteTable)
  | linkCredit (link : LinkId) (bytes : Nat)
  | linkWritable (link : LinkId)
  | linkDown (link : LinkId)
  | timer (timer : ForwardTimer)

inductive ForwardAction where
  | send (link : LinkId) (packet : ForwardPacket)
  | deliverLocal (packet : ForwardPacket)
  | drop (reason : DropReason) (packet : ForwardPacket)
  | backpressure (link : LinkId) (packet : ForwardPacket)
  | setTimer (timer : ForwardTimer) (due : MonoTime)
deriving DecidableEq

structure PendingP0Batch where
  expiresAt : MonoTime
  packets : List QueuedPacket
deriving DecidableEq

/-- A queued packet given up for a newer one with its conflation key. -/
structure Replacement where
  link : LinkId
  replaced : ForwardPacket
  replacement : ForwardPacket
deriving DecidableEq

structure Forwarder where
  me : NodeId
  routes : RouteTable
  links : OrdMap LinkId LinkQueues
  downLinks : Finset LinkId
  pendingP0 : OrdMap Nat PendingP0Batch
  nextPendingGeneration : Nat
  conflated : List Replacement

namespace Forwarder

def new (me : NodeId) (routes : RouteTable) : Forwarder where
  me := me
  routes := routes
  links := ∅
  downLinks := ∅
  pendingP0 := ∅
  nextPendingGeneration := 0
  conflated := []

def trySendOne (f : Forwarder) (link : LinkId) : Option (Forwarder × List ForwardAction) :=
  match f.links[link]? with
  | none => some (f, [])
  | some state =>
    match state.trySendOne with
    | none => none
    | some (state', sent) =>
      some ({ f with links := f.links.insert link state' },
        (sent.map fun queued => ForwardAction.send link queued.packet).toList)

/-- `self.links.entry(link).or_default()`. -/
def linkState (f : Forwarder) (link : LinkId) : LinkQueues := f.links[link]?.getD default

def enqueue (f : Forwarder) (link : LinkId) (packet : ForwardPacket) (incoming : Option LinkId) :
    Option (Forwarder × List ForwardAction) :=
  if link ∈ f.downLinks then some (f, [.drop .linkDown packet])
  else
    let priority := packet.header.priority
    let state := f.linkState link
    let queued : QueuedPacket := ⟨incoming, packet⟩
    match state.conflate queued with
    | some (state', old) =>
      let replacement : Replacement := ⟨link, old.packet, packet⟩
      { f with
        links := f.links.insert link state'
        conflated := f.conflated ++ [replacement] }.trySendOne link
    | none =>
      if queueLimitPackets priority ≤ (state.queues priority).length then
        some ({ f with links := f.links.insert link state },
          if priority = .p0 then [.backpressure link packet]
          else [.drop (.queueFull priority) packet])
      else { f with links := f.links.insert link (state.pushBack queued) }.trySendOne link

def grantCredit (f : Forwarder) (link : LinkId) (bytes : Nat) :
    Option (Forwarder × List ForwardAction) :=
  if link ∈ f.downLinks then some (f, [])
  else
    let state := f.linkState link
    let state := { state with availableCreditBytes := satAdd state.availableCreditBytes bytes }
    { f with links := f.links.insert link state }.trySendOne link

def markWritable (f : Forwarder) (link : LinkId) : Option (Forwarder × List ForwardAction) :=
  if link ∈ f.downLinks then some (f, [])
  else
    let state := { f.linkState link with writable := true }
    { f with links := f.links.insert link state }.trySendOne link

/-- `none` is the underflow of `ttl -= 1`. -/
def forwardUnicast (f : Forwarder) (incoming : Option LinkId) (packet : ForwardPacket) :
    Option ForwardAction :=
  if packet.header.destination = f.me then some (.deliverLocal packet)
  else
    match f.routes.get packet.header.destination with
    | none => some (.drop .noRoute packet)
    | some route =>
      if route.nextHop ∈ f.downLinks then some (.drop .noRoute packet)
      else if incoming = some route.nextHop then some (.drop .loopDetected packet)
      else if packet.header.ttl = 0 then none
      else some (.send route.nextHop
        { packet with header := { packet.header with ttl := packet.header.ttl - 1 } })

/-- `none` is the `expect` on a subset of a validated multicast payload. -/
def multicastSubsetPacket (template : ForwardPacket) (destinations : List NodeId) (body : Bytes)
    (ttl : UInt8) : Option ForwardPacket :=
  match MulticastPayload.new destinations body with
  | .error _ => none
  | .ok multicast =>
    some
      { header := { template.header with
          packetType := .multicast
          destination := default
          ttl := ttl }
        multicastDestinations := multicast.destinations
        payload := multicast.body }

/-- The local copy of a multicast packet: the destination prefix is gone. -/
def localCopy (f : Forwarder) (packet : ForwardPacket) (body : Bytes) : ForwardPacket :=
  { header := { packet.header with destination := f.me }
    multicastDestinations := []
    payload := body }

/-- What `for destination in destinations` of a multicast packet collects. In `reroute_multicast`
`looped` stays empty and `noRoute` is its `unresolved`. -/
structure Split where
  deliverLocal : Bool
  noRoute : List NodeId
  looped : List NodeId
  byLink : OrdMap LinkId (List NodeId)

namespace Split

def empty : Split := ⟨false, [], [], ∅⟩

/-- `by_link.entry(link).or_default().push(destination)`. -/
def push (split : Split) (link : LinkId) (destination : NodeId) : Split :=
  { split with
    byLink := split.byLink.insert link (split.byLink[link]?.getD [] ++ [destination]) }

end Split

def splitForward (f : Forwarder) (incoming : Option LinkId) (split : Split)
    (destination : NodeId) : Split :=
  if destination = f.me then { split with deliverLocal := true }
  else
    match f.routes.get destination with
    | none => { split with noRoute := split.noRoute ++ [destination] }
    | some route =>
      if route.nextHop ∈ f.downLinks then
        { split with noRoute := split.noRoute ++ [destination] }
      else if incoming = some route.nextHop then
        { split with looped := split.looped ++ [destination] }
      else split.push route.nextHop destination

/-- `for (link, destinations) in by_link`: one branch packet per next hop. -/
def enqueueBranches (f : Forwarder) (template : ForwardPacket) (body : Bytes) (ttl : UInt8)
    (incoming : Option LinkId) (byLink : OrdMap LinkId (List NodeId)) :
    Option (Forwarder × List ForwardAction) :=
  emitAll (fun f branch => do
      let packet ← multicastSubsetPacket template branch.2 body ttl
      f.enqueue branch.1 packet incoming)
    f byLink.toList

/-- The drop of a group of destinations, if there is one. -/
def dropSubset (reason : DropReason) (template : ForwardPacket) (destinations : List NodeId)
    (body : Bytes) : Option (List ForwardAction) :=
  if destinations.isEmpty then some []
  else do
    let packet ← multicastSubsetPacket template destinations body template.header.ttl
    some [.drop reason packet]

def forwardMulticast (f : Forwarder) (incoming : Option LinkId) (packet : ForwardPacket) :
    Option (Forwarder × List ForwardAction) :=
  match MulticastPayload.new packet.multicastDestinations packet.payload with
  | .error error => some (f, [.drop (.invalidMulticast error) packet])
  | .ok multicast => do
    let body := multicast.body
    let split := multicast.destinations.foldl (f.splitForward incoming) Split.empty
    let delivered :=
      if split.deliverLocal then [ForwardAction.deliverLocal (f.localCopy packet body)] else []
    let noRoute ← dropSubset .noRoute packet split.noRoute body
    let looped ← dropSubset .loopDetected packet split.looped body
    if packet.header.ttl = 0 then none
    else
      let (f, branches) ←
        f.enqueueBranches packet body (packet.header.ttl - 1) incoming split.byLink
      some (f, delivered ++ noRoute ++ looped ++ branches)

def processPacket (f : Forwarder) (incoming : Option LinkId) (packet : ForwardPacket) :
    Option (Forwarder × List ForwardAction) :=
  if packet.header.ttl = 0 then some (f, [.drop .ttlExceeded packet])
  else
    match packet.header.packetType with
    | .unicast => do
      match ← f.forwardUnicast incoming packet with
      | .send link packet => f.enqueue link packet incoming
      | action => some (f, [action])
    | .multicast => f.forwardMulticast incoming packet
    | unsupported => some (f, [.drop (.unsupportedPacketType unsupported) packet])

def processOutboundMulticast (f : Forwarder) (destinations : List NodeId)
    (packet : ForwardPacket) : Option (Forwarder × List ForwardAction) :=
  let packet := { packet with
    header := { packet.header with packetType := .multicast, destination := default } }
  match MulticastPayload.new destinations packet.payload with
  | .error error => some (f, [.drop (.invalidMulticast error) packet])
  | .ok multicast =>
    f.processPacket none { packet with
      multicastDestinations := multicast.destinations
      payload := multicast.body }

def rerouteLink (f : Forwarder) (destination : NodeId) (incoming : Option LinkId) :
    Option LinkId :=
  match f.routes.get destination with
  | none => none
  | some route =>
    if route.nextHop ∉ f.downLinks ∧ incoming ≠ some route.nextHop then some route.nextHop
    else none

/-- The packets a reroute leaves unresolved come with the actions. -/
def rerouteUnicast (f : Forwarder) (queued : QueuedPacket) :
    Option (Forwarder × List ForwardAction × List QueuedPacket) :=
  if queued.packet.header.destination = f.me then
    some (f, [.deliverLocal queued.packet], [])
  else
    match f.rerouteLink queued.packet.header.destination queued.incoming with
    | none => some (f, [], [queued])
    | some link => do
      let (f, actions) ← f.enqueue link queued.packet queued.incoming
      some (f, actions, [])

def splitReroute (f : Forwarder) (incoming : Option LinkId) (split : Split)
    (destination : NodeId) : Split :=
  if destination = f.me then { split with deliverLocal := true }
  else
    match f.rerouteLink destination incoming with
    | some link => split.push link destination
    | none => { split with noRoute := split.noRoute ++ [destination] }

def rerouteMulticast (f : Forwarder) (queued : QueuedPacket) :
    Option (Forwarder × List ForwardAction × List QueuedPacket) :=
  let packet := queued.packet
  match MulticastPayload.new packet.multicastDestinations packet.payload with
  | .error error => some (f, [.drop (.invalidMulticast error) packet], [])
  | .ok multicast => do
    let body := multicast.body
    let split := multicast.destinations.foldl (f.splitReroute queued.incoming) Split.empty
    let delivered :=
      if split.deliverLocal then [ForwardAction.deliverLocal (f.localCopy packet body)] else []
    let (f, branches) ←
      f.enqueueBranches packet body packet.header.ttl queued.incoming split.byLink
    let unresolved ←
      if split.noRoute.isEmpty then some []
      else do
        let rest ← multicastSubsetPacket packet split.noRoute body packet.header.ttl
        some [⟨queued.incoming, rest⟩]
    some (f, delivered ++ branches, unresolved)

def rerouteQueued (f : Forwarder) (queued : QueuedPacket) :
    Option (Forwarder × List ForwardAction × List QueuedPacket) :=
  match queued.packet.header.packetType with
  | .unicast => f.rerouteUnicast queued
  | .multicast => f.rerouteMulticast queued
  | unsupported => some (f, [.drop (.unsupportedPacketType unsupported) queued.packet], [])

def dropQueuedPackets (packets : List QueuedPacket) (reason : DropReason) : List ForwardAction :=
  packets.map fun queued => .drop reason queued.packet

/-- The first free generation from `generation` on, wrapping at `2 ^ 64`. -/
def freeGeneration (pending : OrdMap Nat PendingP0Batch) : Nat → Nat → Option Nat
  | 0, _ => none
  | fuel + 1, generation =>
    if pending.contains generation then freeGeneration pending fuel ((generation + 1) % 2 ^ 64)
    else some generation

/-- Parks the P0 queue of a failed link. -/
def parkP0 (f : Forwarder) (now : MonoTime) (p0 : List QueuedPacket) :
    Option (Forwarder × List ForwardAction) :=
  if p0.isEmpty then some (f, [])
  else do
    let generation ← freeGeneration f.pendingP0 (f.pendingP0.size + 1) f.nextPendingGeneration
    let expiresAt := satAdd now p0RouteWaitMs
    some ({ f with
        nextPendingGeneration := (generation + 1) % 2 ^ 64
        pendingP0 := f.pendingP0.insert generation ⟨expiresAt, p0⟩ },
      [.setTimer (.pendingP0 generation) expiresAt])

/-- One P2 packet of a failed link: what cannot be rerouted is dropped. -/
def rerouteOrDrop (f : Forwarder) (queued : QueuedPacket) :
    Option (Forwarder × List ForwardAction) := do
  let (f, routed, unresolved) ← f.rerouteQueued queued
  some (f, routed ++ dropQueuedPackets unresolved .linkDown)

def handleLinkDown (f : Forwarder) (now : MonoTime) (link : LinkId) :
    Option (Forwarder × List ForwardAction) :=
  let f := { f with downLinks := insert link f.downLinks }
  match f.links[link]? with
  | none => some (f, [])
  | some state => do
    let f := { f with links := f.links.erase link }
    let (f, parked) ← f.parkP0 now (state.queues .p0)
    let (f, rerouted) ← emitAll rerouteOrDrop f (state.queues .p2)
    some (f, parked ++ dropQueuedPackets (state.queues .p1) .linkDown ++ rerouted ++
      dropQueuedPackets (state.queues .p3) .linkDown)

/-- `for queued in batch.packets`: the actions, and the packets that stay parked. -/
def rerouteBatch (f : Forwarder) : List QueuedPacket →
    Option (Forwarder × List ForwardAction × List QueuedPacket)
  | [] => some (f, [], [])
  | queued :: rest => do
    let (f, routed, unresolved) ← f.rerouteQueued queued
    let (f, actions, remaining) ← f.rerouteBatch rest
    some (f, routed ++ actions, unresolved ++ remaining)

/-- One batch of `retry_pending_p0`. -/
def retryBatch (now : MonoTime) (f : Forwarder) (entry : Nat × PendingP0Batch) :
    Option (Forwarder × List ForwardAction) :=
  let batch := entry.2
  if batch.expiresAt ≤ now then some (f, dropQueuedPackets batch.packets .routeWaitExpired)
  else do
    let (f, actions, remaining) ← f.rerouteBatch batch.packets
    if remaining.isEmpty then some (f, actions)
    else some ({ f with pendingP0 := f.pendingP0.insert entry.1 ⟨batch.expiresAt, remaining⟩ },
      actions)

def retryPendingP0 (f : Forwarder) (now : MonoTime) : Option (Forwarder × List ForwardAction) :=
  emitAll (retryBatch now) { f with pendingP0 := ∅ } f.pendingP0.toList

def handleRoutesUpdated (f : Forwarder) (now : MonoTime) (routes : RouteTable) :
    Option (Forwarder × List ForwardAction) :=
  let referencedLinks := (routes.routes.toList.map fun e => e.2.nextHop).toFinset
  { f with routes := routes, downLinks := f.downLinks ∩ referencedLinks }.retryPendingP0 now

def handleTimer (f : Forwarder) (now : MonoTime) :
    ForwardTimer → Forwarder × List ForwardAction
  | .pendingP0 generation =>
    match f.pendingP0[generation]? with
    | none => (f, [])
    | some batch =>
      if now < batch.expiresAt then
        (f, [.setTimer (.pendingP0 generation) batch.expiresAt])
      else ({ f with pendingP0 := f.pendingP0.erase generation },
        dropQueuedPackets batch.packets .routeWaitExpired)

def handle (f : Forwarder) (now : MonoTime) :
    ForwardEvent → Option (Forwarder × List ForwardAction)
  | .outbound packet => f.processPacket none packet
  | .outboundMulticast destinations packet => f.processOutboundMulticast destinations packet
  | .inbound link packet => f.processPacket (some link) packet
  | .routesUpdated routes => f.handleRoutesUpdated now routes
  | .linkCredit link bytes => f.grantCredit link bytes
  | .linkWritable link => f.markWritable link
  | .linkDown link => f.handleLinkDown now link
  | .timer timer => some (f.handleTimer now timer)

/-- A run: the events with their times, in order. -/
def run (f : Forwarder) (events : List (MonoTime × ForwardEvent)) :
    Option (Forwarder × List ForwardAction) :=
  emitAll (fun f e => f.handle e.1 e.2) f events

end Forwarder
end Forward
end MeshBus
