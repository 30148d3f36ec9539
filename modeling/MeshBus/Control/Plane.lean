import MeshBus.Control.Spf
import MeshBus.Lib.Emit

/-!
# Control.Plane

The control plane as a state machine: `handle plane now event` is the next state and the list of
actions. `none` is a panic of the source, at a `checked_add(..).expect(..)`, at the `expect` on
installing the local LSA, or in `shortest_paths`.
-/

namespace MeshBus
namespace Control
namespace ControlPlane

/-- `with_auth_and_seq`. -/
def withAuthAndSeq (me : NodeId) (epoch : UInt32) (lastSeq : UInt64)
    (signer : Lsa → LsaMessage) (verifier : LsaMessage → Bool) : ControlPlane where
  me := me
  epoch := epoch
  mySeq := lastSeq
  adjacencies := ∅
  localTopicAds := []
  lsdb := ∅
  routes := default
  publishedTopicAds := []
  pendingSpf := none
  spfGeneration := 0
  spfHoldMs := spfInitialHoldMs
  lastLsdbChangeAt := none
  signer := signer
  verifier := verifier

/-- The next locally originated LSA has a sequence number greater than `lastSeq`. -/
def newUnsecuredWithSeq (me : NodeId) (epoch : UInt32) (lastSeq : UInt64) : ControlPlane :=
  withAuthAndSeq me epoch lastSeq unsecuredSign unsecuredVerify

def install (plane : ControlPlane) (message : LsaMessage) (now : MonoTime) :
    Option (ControlPlane × ControlAction) :=
  let origin := message.lsa.origin
  if !plane.lsdb.contains origin && maxLsdbEntries ≤ plane.lsdb.size then none
  else
    let expiresAt := satAdd now (ttlMs message.lsa)
    let entry : LsdbEntry :=
      { version := lsaVersion message.lsa
        state := .active { message := message, receivedAt := now, expiresAt := expiresAt } }
    some ({ plane with lsdb := plane.lsdb.insert origin entry },
      .setTimer (.lsaExpire origin message.lsa.epoch message.lsa.seq) expiresAt)

def flood (plane : ControlPlane) (message : LsaMessage) (except_ : Option LinkId) :
    List ControlAction :=
  (plane.adjacencies.keys.filter fun link => some link ≠ except_).map fun link =>
    .send link (.lsa message)

def digest (plane : ControlPlane) : List DigestEntry :=
  plane.lsdb.toList.map fun e => ⟨e.1, e.2.version.epoch, e.2.version.seq⟩

def sendDigest (plane : ControlPlane) (link : LinkId) : ControlAction :=
  .send link (.digest plane.digest)

def sendLsa (link : LinkId) (message : LsaMessage) : ControlAction := .send link (.lsa message)

def nextDigestTimer (now : MonoTime) (link : LinkId) : ControlAction :=
  .setTimer (.digest link) (satAdd now digestIntervalMs)

def nextRefreshTimer (now : MonoTime) (lsa : Lsa) : ControlAction :=
  .setTimer (.lsaRefresh lsa.epoch lsa.seq) (satAdd now (ttlMs lsa / 5))

/-- `None` of the source is `[]`, `Some(action)` is `[action]`. -/
def markSpfDirty (plane : ControlPlane) (now : MonoTime) :
    Option (ControlPlane × List ControlAction) :=
  let wasQuiet := plane.lastLsdbChangeAt.any fun lastChange => spfQuietResetMs ≤ now - lastChange
  let holdMs := if wasQuiet then spfInitialHoldMs else plane.spfHoldMs
  let plane := { plane with lastLsdbChangeAt := some now, spfHoldMs := holdMs }
  if plane.pendingSpf.isSome && !wasQuiet then some (plane, [])
  else if u64Max ≤ plane.spfGeneration then none
  else
    let generation := plane.spfGeneration + 1
    let due := satAdd now holdMs
    some ({ plane with spfGeneration := generation, pendingSpf := some ⟨generation, due⟩ },
      [.setTimer (.spfHold generation) due])

/-- Least cost to each peer, over the given links in order. -/
def bestOf (links : List (LinkId × LocalAdjacency)) : OrdMap NodeId LinkCost :=
  links.foldl
    (fun best e => best.alter e.2.peer fun
      | none => some e.2.cost
      | some cost => some (min cost e.2.cost))
    ∅

def bestByPeer (plane : ControlPlane) : OrdMap NodeId LinkCost := bestOf plane.adjacencies.toList

/-- The LSA `originate_lsa` builds for sequence number `seq`. -/
def localLsa (plane : ControlPlane) (seq : UInt64) : Lsa where
  origin := plane.me
  epoch := plane.epoch
  seq := seq
  ttlSec := defaultLsaTtlSec
  adjacencies := plane.bestByPeer.toList.map fun e => ⟨e.1, e.2⟩
  topics := plane.localTopicAds

def originateLsa (plane : ControlPlane) (now : MonoTime) :
    Option (ControlPlane × List ControlAction) :=
  if plane.mySeq.toNat = u64Max then none
  else do
    let plane := { plane with mySeq := plane.mySeq + 1 }
    let message := plane.signer (plane.localLsa plane.mySeq)
    let (plane, expiry) ← plane.install message now
    let (dirty, spf) ← plane.markSpfDirty now
    some (dirty, .persistSeq plane.mySeq :: plane.flood message none ++
      [expiry, nextRefreshTimer now message.lsa] ++ spf)

def isNewer (plane : ControlPlane) (candidate : Lsa) : Bool :=
  match plane.lsdb[candidate.origin]? with
  | none => true
  | some current => lsaVersion candidate > current.version

/-- The reply to a stale LSA: the stored message, when it is active and newer. -/
def staleReply (plane : ControlPlane) (incoming : LinkId) (lsa : Lsa) : List ControlAction :=
  match plane.lsdb[lsa.origin]? with
  | none => []
  | some entry =>
    if entry.version > lsaVersion lsa then
      (entry.active.map fun active => sendLsa incoming active.message).toList
    else []

def receiveLsa (plane : ControlPlane) (now : MonoTime) (incoming : LinkId) (message : LsaMessage) :
    Option (ControlPlane × List ControlAction) :=
  if !plane.adjacencies.contains incoming || !validLsa message.lsa || !plane.verifier message then
    some (plane, [])
  else if message.lsa.origin = plane.me then
    some (plane, plane.staleReply incoming message.lsa)
  else if !plane.isNewer message.lsa then
    some (plane, plane.staleReply incoming message.lsa)
  else
    match plane.install message now with
    | none => some (plane, [])
    | some (installed, expiry) => do
      let (dirty, spf) ← installed.markSpfDirty now
      some (dirty, installed.flood message (some incoming) ++ [expiry] ++ spf)

/-- The greatest version a digest gives for each origin. -/
def remoteVersions (entries : List DigestEntry) : OrdMap NodeId Version :=
  entries.foldl
    (fun remote entry => remote.alter entry.origin fun
      | none => some entry.version
      | some version => some (max version entry.version))
    ∅

/-- One origin of the digest comparison: the request it adds and the LSAs it answers with. -/
def compareOrigin (plane : ControlPlane) (incoming : LinkId) (remote : OrdMap NodeId Version)
    (origin : NodeId) : Option (List NodeId × List ControlAction) := do
  let entry := plane.lsdb[origin]?
  match ← compareVersions (entry.map LsdbEntry.version) remote[origin]? with
  | .remoteOnly | .remoteNewer => some (if origin ≠ plane.me then [origin] else [], [])
  | .localOnly | .localNewer =>
    some ([], ((entry.bind LsdbEntry.active).map fun active =>
      sendLsa incoming active.message).toList)
  | .sameVersion => some ([], [])

def receiveDigest (plane : ControlPlane) (incoming : LinkId) (entries : List DigestEntry) :
    Option (List ControlAction) :=
  if !plane.adjacencies.contains incoming || maxDigestEntries < entries.length then some []
  else do
    let remote := remoteVersions entries
    let origins := (Std.ExtTreeMap.unitOfList (plane.lsdb.keys ++ remote.keys) compare).keys
    let compared ← origins.mapM (plane.compareOrigin incoming remote)
    let requested := compared.flatMap Prod.fst
    some (compared.flatMap Prod.snd ++
      if requested.isEmpty then [] else [.send incoming (.digestReq requested)])

def receiveDigestReq (plane : ControlPlane) (incoming : LinkId) (origins : List NodeId) :
    List ControlAction :=
  if !plane.adjacencies.contains incoming || maxDigestReqOrigins < origins.length then []
  else
    (Std.ExtTreeMap.unitOfList origins compare).keys.filterMap fun origin =>
      (plane.lsdb[origin]?.bind LsdbEntry.active).map fun active => sendLsa incoming active.message

def handleDigestTimer (plane : ControlPlane) (now : MonoTime) (link : LinkId) :
    List ControlAction :=
  if !plane.adjacencies.contains link then []
  else [plane.sendDigest link, nextDigestTimer now link]

def handleRefreshTimer (plane : ControlPlane) (now : MonoTime) (epoch : UInt32)
    (seq : UInt64) :
    Option (ControlPlane × List ControlAction) :=
  let isCurrent := plane.lsdb[plane.me]?.any fun entry =>
    entry.version = ⟨epoch, seq⟩ && entry.active.isSome
  if isCurrent then plane.originateLsa now else some (plane, [])

def handleExpireTimer (plane : ControlPlane) (now : MonoTime) (origin : NodeId)
    (epoch : UInt32) (seq : UInt64) : Option (ControlPlane × List ControlAction) :=
  match plane.lsdb[origin]? with
  | none => some (plane, [])
  | some entry =>
    if entry.version ≠ ⟨epoch, seq⟩ then some (plane, [])
    else
      match entry.active with
      | none => some (plane, [])
      | some active =>
        if now < active.expiresAt then
          some (plane, [.setTimer (.lsaExpire origin epoch seq) active.expiresAt])
        else
          let expired := { entry with state := .tombstone }
          { plane with lsdb := plane.lsdb.insert origin expired }.markSpfDirty now

/-- The route table version is a `u64` incremented with `+`. -/
def recomputeRoutes (plane : ControlPlane) : Option (ControlPlane × List ControlAction) := do
  let routes ← plane.shortestPaths
  if routes = plane.routes.routes then some (plane, [])
  else if u64Max ≤ plane.routes.version then none
  else
    let table : RouteTable := ⟨plane.routes.version + 1, routes⟩
    some ({ plane with routes := table }, [.publishRoutes table])

def discovered (plane : ControlPlane) : List DiscoveredTopicAd :=
  (plane.lsdb.toList.flatMap fun e =>
    (e.2.active.map fun active =>
      active.message.lsa.topics.map fun ad => (⟨e.1, ad⟩ : DiscoveredTopicAd)).getD []
    ).insertionSort (· ≤ ·)

def recomputeTopicAds (plane : ControlPlane) : ControlPlane × List ControlAction :=
  if plane.discovered = plane.publishedTopicAds then (plane, [])
  else ({ plane with publishedTopicAds := plane.discovered },
    [.publishTopicAds plane.discovered])

def handleSpfTimer (plane : ControlPlane) (now : MonoTime) (generation : Nat) :
    Option (ControlPlane × List ControlAction) :=
  match plane.pendingSpf with
  | none => some (plane, [])
  | some pending =>
    if pending.generation ≠ generation then some (plane, [])
    else if now < pending.due then
      some (plane, [.setTimer (.spfHold generation) pending.due])
    else do
      let plane := { plane with
        pendingSpf := none
        spfHoldMs := min (satMul plane.spfHoldMs 2) spfMaxHoldMs }
      let (plane, routes) ← plane.recomputeRoutes
      let (plane, topicAds) := plane.recomputeTopicAds
      some (plane, routes ++ topicAds)

def handle (plane : ControlPlane) (now : MonoTime) :
    ControlEvent → Option (ControlPlane × List ControlAction)
  | .linkUp link peer cost => do
    let adjacencies := plane.adjacencies.insert link ⟨peer, cost⟩
    let (plane, actions) ← { plane with adjacencies := adjacencies }.originateLsa now
    some (plane, actions ++ [plane.sendDigest link, nextDigestTimer now link])
  | .linkDown link =>
    if !plane.adjacencies.contains link then some (plane, [])
    else { plane with adjacencies := plane.adjacencies.erase link }.originateLsa now
  | .localTopicAdsChanged ads =>
    let ads := ads.insertionSort (· ≤ ·)
    if !validTopicAds ads || ads = plane.localTopicAds then some (plane, [])
    else { plane with localTopicAds := ads }.originateLsa now
  | .frame link (.lsa message) => plane.receiveLsa now link message
  | .frame link (.digest entries) => do
    let actions ← plane.receiveDigest link entries
    some (plane, actions)
  | .frame link (.digestReq origins) => some (plane, plane.receiveDigestReq link origins)
  | .timer (.digest link) => some (plane, plane.handleDigestTimer now link)
  | .timer (.spfHold generation) => plane.handleSpfTimer now generation
  | .timer (.lsaRefresh epoch seq) => plane.handleRefreshTimer now epoch seq
  | .timer (.lsaExpire origin epoch seq) => plane.handleExpireTimer now origin epoch seq

/-- A run: the events with their times, in order. -/
def run (plane : ControlPlane) (events : List (MonoTime × ControlEvent)) :
    Option (ControlPlane × List ControlAction) :=
  emitAll (fun plane e => plane.handle e.1 e.2) plane events

end ControlPlane
end Control
end MeshBus
