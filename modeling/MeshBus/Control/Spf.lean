import MeshBus.Control.Lsa

/-!
# Control.Spf

The state of a `ControlPlane` and its route computation `shortest_paths`: Dijkstra's algorithm
with lazy deletion over the graph of adjacencies that both ends advertise.

`none` stands for a panic: indexing `first_peer` or `path_hops` at a missing node, or the `while`
loop not ending within `spfFuel`.
-/

namespace MeshBus

/-- `collect` of an iterator over a map whose closure may panic: `f k v = none` is the panic,
`some none` skips the entry. -/
def OrdMap.collectM {κ ν μ : Type*} [LinearOrder κ] (f : κ → ν → Option (Option μ))
    (m : OrdMap κ ν) : Option (OrdMap κ μ) :=
  if m.toList.all fun e => (f e.1 e.2).isSome then some (m.filterMap fun k v => (f k v).join)
  else none

namespace Control

structure ActiveLsa where
  message : LsaMessage
  receivedAt : MonoTime
  expiresAt : MonoTime
deriving DecidableEq

inductive LsdbEntryState where
  | active (lsa : ActiveLsa)
  | tombstone
deriving DecidableEq

structure LsdbEntry where
  version : Version
  state : LsdbEntryState
deriving DecidableEq

def LsdbEntry.active (entry : LsdbEntry) : Option ActiveLsa :=
  match entry.state with
  | .active lsa => some lsa
  | .tombstone => none

structure LocalAdjacency where
  peer : NodeId
  cost : LinkCost
deriving DecidableEq

structure PendingSpf where
  generation : Nat
  due : MonoTime
deriving DecidableEq

structure ControlPlane where
  me : NodeId
  epoch : UInt32
  mySeq : UInt64
  adjacencies : OrdMap LinkId LocalAdjacency
  localTopicAds : List TopicAd
  lsdb : OrdMap NodeId LsdbEntry
  routes : RouteTable
  publishedTopicAds : List DiscoveredTopicAd
  pendingSpf : Option PendingSpf
  spfGeneration : Nat
  spfHoldMs : Nat
  lastLsdbChangeAt : Option MonoTime
  signer : Lsa → LsaMessage
  verifier : LsaMessage → Bool

namespace ControlPlane

/-- The active LSA of an origin. -/
def lsa (plane : ControlPlane) (origin : NodeId) : Option Lsa :=
  (plane.lsdb[origin]?.bind LsdbEntry.active).map fun active => active.message.lsa

/-- The edges an active LSA lists whose peer has an active LSA listing the origin back. -/
def bidirectionalGraph (plane : ControlPlane) : OrdMap NodeId (List Adjacency) :=
  plane.lsdb.filterMap fun origin entry =>
    entry.active.map fun active =>
      active.message.lsa.adjacencies.filter fun edge =>
        (plane.lsa edge.peer).any fun peerLsa =>
          peerLsa.adjacencies.any fun reverse => reverse.peer == origin

/-- The local link to `peer` with the least `(cost, link)`. -/
def bestLinkTo (plane : ControlPlane) (peer : NodeId) : Option LinkId :=
  ((plane.adjacencies.toList.filter fun e => e.2.peer == peer).argmin
    fun e => toLex (e.2.cost, e.1)).map Prod.fst

end ControlPlane

/-- The locals of `shortest_paths`. The heap of `Reverse((cost, node))` is a list sorted by
`(cost, node)`, so that `pop` takes its head. -/
structure SpfState where
  distance : OrdMap NodeId Nat
  pathHops : OrdMap NodeId Nat
  firstPeer : OrdMap NodeId NodeId
  pending : List (Nat ×ₗ NodeId)

namespace SpfState

def start (me : NodeId) : SpfState where
  distance := (∅ : OrdMap NodeId Nat).insert me 0
  pathHops := (∅ : OrdMap NodeId Nat).insert me 0
  firstPeer := ∅
  pending := [toLex (0, me)]

/-- Whether the label of `peer` gives way to a candidate: a smaller cost, or the same cost and a
smaller first peer. -/
def shouldReplace (st : SpfState) (peer : NodeId) (candidateCost : Nat)
    (candidateFirst : NodeId) : Bool :=
  match st.distance[peer]? with
  | none => true
  | some currentCost =>
    if candidateCost < currentCost then true
    else if candidateCost = currentCost then
      st.firstPeer[peer]?.any fun currentFirst => candidateFirst < currentFirst
    else false

def replace (st : SpfState) (peer : NodeId) (candidateCost candidateHops : Nat)
    (candidateFirst : NodeId) : SpfState where
  distance := st.distance.insert peer candidateCost
  pathHops := st.pathHops.insert peer candidateHops
  firstPeer := st.firstPeer.insert peer candidateFirst
  pending := st.pending.orderedInsert (· ≤ ·) (toLex (candidateCost, peer))

/-- The body of `for edge in edges`. -/
def relax (me node : NodeId) (knownCost : Nat) (st : SpfState) (edge : Adjacency) :
    Option SpfState := do
  let candidateCost := min (knownCost + edge.cost.val) u32Max
  let hops ← st.pathHops[node]?
  let candidateHops := min (hops + 1) 255
  let candidateFirst ← if node = me then some edge.peer else st.firstPeer[node]?
  if st.shouldReplace edge.peer candidateCost candidateFirst then
    some (st.replace edge.peer candidateCost candidateHops candidateFirst)
  else some st

/-- `while let Some(Reverse((known_cost, node))) = pending.pop()`. -/
def loop (me : NodeId) (graph : OrdMap NodeId (List Adjacency)) : Nat → SpfState → Option SpfState
  | 0, _ => none
  | fuel + 1, st =>
    match st.pending with
    | [] => some st
    | top :: rest =>
      let knownCost := (ofLex top).1
      let node := (ofLex top).2
      let popped := { st with pending := rest }
      if popped.distance[node]? ≠ some knownCost then loop me graph fuel popped
      else
        match graph[node]? with
        | none => loop me graph fuel popped
        | some edges =>
          match edges.foldlM (relax me node knownCost) popped with
          | none => none
          | some st' => loop me graph fuel st'

end SpfState

/-- Enough rounds for the loop: every push lowers one of at most `size + 1` labels, and a label
takes at most `2 ^ 32 * (size + 1)` values. -/
def spfFuel (graph : OrdMap NodeId (List Adjacency)) : Nat :=
  2 ^ 32 * (graph.size + 1) * (graph.size + 1) + 2

namespace ControlPlane

/-- One entry of the final `filter_map`. -/
def routeTo (plane : ControlPlane) (st : SpfState) (destination : NodeId) (cost : Nat) :
    Option (Option Route) :=
  if destination = plane.me then some none
  else do
    let peer ← st.firstPeer[destination]?
    match plane.bestLinkTo peer with
    | none => some none
    | some link =>
      let hops ← st.pathHops[destination]?
      some (some { nextHop := link, cost := cost, hops := hops })

def shortestPaths (plane : ControlPlane) : Option (OrdMap NodeId Route) :=
  let graph := plane.bidirectionalGraph
  (SpfState.loop plane.me graph (spfFuel graph) (.start plane.me)).bind fun st =>
    st.distance.collectM (plane.routeTo st)

end ControlPlane

end Control
end MeshBus
