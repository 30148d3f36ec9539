import MeshBus.Types

/-!
# Control.Lsa

The data of the link-state control plane (`mb-control`): link-state advertisements (LSAs), the
frames that carry them, the events the plane handles and the actions it returns.

A link cost is never zero and topic roles are a non-empty set of known bits; both are built only
through a checking constructor in the source, so the check is a field here. A version orders by
epoch first and sequence number second.
-/

namespace MeshBus
namespace Control

def digestIntervalMs : Nat := 10000
def spfInitialHoldMs : Nat := 100
def spfMaxHoldMs : Nat := 5000
def spfQuietResetMs : Nat := 10000
def defaultLsaTtlSec : UInt32 := 300
def maxLsaTtlSec : UInt32 := 3600
def maxLsdbEntries : Nat := 1000
def maxLsaAdjacencies : Nat := 256
def maxLsaTopicAds : Nat := 256
def maxTopicNameLen : Nat := 1024
def maxTopicPartitionLen : Nat := 64 * 1024
def maxDigestEntries : Nat := maxLsdbEntries
def maxDigestReqOrigins : Nat := maxLsdbEntries

/-- Cost of traversing one directed edge: a non-zero `u16`. -/
structure LinkCost where
  val : Nat
  pos : 0 < val
  lt : val < 2 ^ 16
deriving DecidableEq

namespace LinkCost

def new (value : Nat) (h : value < 2 ^ 16) : Option LinkCost :=
  if hz : value = 0 then none else some ⟨value, Nat.pos_of_ne_zero hz, h⟩

instance : LinearOrder LinkCost :=
  LinearOrder.lift' val fun a b h => by cases a; cases b; cases h; rfl

end LinkCost

def unitCost : LinkCost := ⟨1, by decide, by decide⟩

structure Adjacency where
  peer : NodeId
  cost : LinkCost
deriving DecidableEq

/-- Publish, subscribe and store bits. -/
def TopicRoles.all : UInt8 := 0b111

structure TopicRoles where
  bits : UInt8
  valid : bits ≠ 0 ∧ bits &&& ~~~TopicRoles.all = 0
deriving DecidableEq

namespace TopicRoles

def fromBits (bits : UInt8) : Option TopicRoles :=
  if h : bits ≠ 0 ∧ bits &&& ~~~all = 0 then some ⟨bits, h⟩ else none

def subscribe : TopicRoles := ⟨0b010, by decide⟩

def contains (self role : TopicRoles) : Bool := self.bits &&& role.bits == role.bits

theorem fromBits_bits (roles : TopicRoles) : fromBits roles.bits = some roles := by
  rw [fromBits, dif_pos roles.valid]

end TopicRoles

structure TopicAd where
  topic : Bytes
  partition : Bytes
  roles : TopicRoles
  headSeq : UInt64
  tailSeq : UInt64
deriving DecidableEq

/-- `#[derive(Ord)]`: field by field. -/
instance : LinearOrder TopicAd :=
  LinearOrder.lift'
    (fun ad => toLex (ad.topic, toLex (ad.partition, toLex (ad.roles.bits,
      toLex (ad.headSeq.toNat, ad.tailSeq.toNat)))))
    fun a b h => by
      obtain ⟨t, p, ⟨r, _⟩, hs, ts⟩ := a
      obtain ⟨t', p', ⟨r', _⟩, hs', ts'⟩ := b
      simp only [EmbeddingLike.apply_eq_iff_eq, Prod.mk.injEq, UInt64.toNat_inj] at h
      obtain ⟨rfl, rfl, rfl, rfl, rfl⟩ := h
      rfl

structure DiscoveredTopicAd where
  node : NodeId
  ad : TopicAd
deriving DecidableEq

instance : LinearOrder DiscoveredTopicAd :=
  LinearOrder.lift' (fun d => toLex (d.node, d.ad)) fun a b h => by
    cases a; cases b
    simpa using h

structure Lsa where
  origin : NodeId
  epoch : UInt32
  seq : UInt64
  ttlSec : UInt32
  adjacencies : List Adjacency
  topics : List TopicAd
deriving DecidableEq

/-- The unsecured signer leaves both byte strings empty; a relayed message keeps the bytes it
arrived with. -/
structure LsaMessage where
  lsa : Lsa
  canonicalBytes : Bytes
  signature : Bytes
deriving DecidableEq

/-- `(epoch, seq)`. -/
structure Version where
  epoch : UInt32
  seq : UInt64
deriving DecidableEq

namespace Version

instance : LinearOrder Version :=
  LinearOrder.lift' (fun v => toLex (v.epoch.toNat, v.seq.toNat)) fun a b h => by
    cases a; cases b
    simpa [UInt32.toNat_inj, UInt64.toNat_inj] using h

theorem lt_def {a b : Version} :
    a < b ↔ a.epoch.toNat < b.epoch.toNat ∨ a.epoch = b.epoch ∧ a.seq.toNat < b.seq.toNat := by
  change toLex (a.epoch.toNat, a.seq.toNat) < toLex (b.epoch.toNat, b.seq.toNat) ↔ _
  simp [Prod.Lex.toLex_lt_toLex, UInt32.toNat_inj]

end Version

def lsaVersion (lsa : Lsa) : Version := ⟨lsa.epoch, lsa.seq⟩

structure DigestEntry where
  origin : NodeId
  epoch : UInt32
  seq : UInt64
deriving DecidableEq

def DigestEntry.version (entry : DigestEntry) : Version := ⟨entry.epoch, entry.seq⟩

inductive EntryRelation where
  | remoteOnly
  | remoteNewer
  | sameVersion
  | localNewer
  | localOnly
deriving DecidableEq

/-- `none` is the `unreachable!` of the source: the origin is in neither digest. -/
def compareVersions : Option Version → Option Version → Option EntryRelation
  | none, some _ => some .remoteOnly
  | some _, none => some .localOnly
  | some loc, some remote =>
    if remote > loc then some .remoteNewer
    else if loc > remote then some .localNewer
    else some .sameVersion
  | none, none => none

/-- `UnsecuredLsaAuth::sign`. -/
def unsecuredSign (lsa : Lsa) : LsaMessage := ⟨lsa, [], []⟩

/-- `UnsecuredLsaAuth::verify`. -/
def unsecuredVerify (_ : LsaMessage) : Bool := true

inductive ControlFrame where
  | lsa (message : LsaMessage)
  | digest (entries : List DigestEntry)
  | digestReq (origins : List NodeId)
deriving DecidableEq

inductive ControlTimer where
  | digest (link : LinkId)
  | spfHold (generation : Nat)
  | lsaRefresh (epoch : UInt32) (seq : UInt64)
  | lsaExpire (origin : NodeId) (epoch : UInt32) (seq : UInt64)
deriving DecidableEq

inductive ControlEvent where
  | linkUp (link : LinkId) (peer : NodeId) (cost : LinkCost)
  | linkDown (link : LinkId)
  | localTopicAdsChanged (ads : List TopicAd)
  | frame (link : LinkId) (frame : ControlFrame)
  | timer (timer : ControlTimer)
deriving DecidableEq

structure Route where
  nextHop : LinkId
  cost : Nat
  hops : Nat
deriving DecidableEq

structure RouteTable where
  version : Nat
  routes : OrdMap NodeId Route
deriving DecidableEq

/-- `RouteTable::default()`. -/
instance : Inhabited RouteTable := ⟨⟨0, ∅⟩⟩

def RouteTable.get (table : RouteTable) (destination : NodeId) : Option Route :=
  table.routes[destination]?

inductive ControlAction where
  | send (link : LinkId) (frame : ControlFrame)
  | setTimer (timer : ControlTimer) (due : MonoTime)
  | publishRoutes (routes : RouteTable)
  | publishTopicAds (ads : List DiscoveredTopicAd)
  | persistSeq (seq : UInt64)
deriving DecidableEq

def validTopicAds (ads : List TopicAd) : Bool :=
  ads.length ≤ maxLsaTopicAds
    && ads.all (fun ad =>
      !ad.topic.isEmpty
        && ad.topic.length ≤ maxTopicNameLen
        && ad.partition.length ≤ maxTopicPartitionLen
        && (TopicRoles.fromBits ad.roles.bits).isSome)
    && (ads.map fun ad => (ad.topic, ad.partition)).toFinset.card == ads.length

/-- One ad within its limits. Its roles are valid by construction. -/
def ValidAd (ad : TopicAd) : Prop :=
  ad.topic ≠ [] ∧ ad.topic.length ≤ maxTopicNameLen ∧ ad.partition.length ≤ maxTopicPartitionLen

/-- The set of the pairs is as large as the list exactly when no pair occurs twice. -/
theorem card_topics_iff {ads : List TopicAd} :
    (ads.map fun ad => (ad.topic, ad.partition)).toFinset.card = ads.length ↔
      (ads.map fun ad => (ad.topic, ad.partition)).Nodup := by
  rw [← List.length_map (fun ad : TopicAd => (ad.topic, ad.partition)), List.card_toFinset]
  constructor
  · intro h
    rw [← List.dedup_eq_self]
    exact (List.dedup_sublist _).eq_of_length h
  · intro h
    rw [h.dedup]

theorem validTopicAds_iff {ads : List TopicAd} :
    validTopicAds ads = true ↔ ads.length ≤ maxLsaTopicAds ∧ (∀ ad ∈ ads, ValidAd ad) ∧
      (ads.map fun ad => (ad.topic, ad.partition)).Nodup := by
  simp only [validTopicAds, Bool.and_eq_true, decide_eq_true_eq, List.all_eq_true, beq_iff_eq,
    card_topics_iff, TopicRoles.fromBits_bits, Option.isSome_some, Bool.not_eq_true',
    List.isEmpty_eq_false_iff, ValidAd, and_assoc, and_true]

theorem validTopicAds_perm {ads ads' : List TopicAd} (h : ads.Perm ads') :
    validTopicAds ads = true ↔ validTopicAds ads' = true := by
  rw [validTopicAds_iff, validTopicAds_iff, h.length_eq, (h.map _).nodup_iff]
  simp only [h.mem_iff]

def validLsa (lsa : Lsa) : Bool :=
  1 ≤ lsa.ttlSec && lsa.ttlSec ≤ maxLsaTtlSec
    && lsa.adjacencies.length ≤ maxLsaAdjacencies
    && validTopicAds lsa.topics

theorem validLsa_iff {lsa : Lsa} : validLsa lsa = true ↔
    (1 ≤ lsa.ttlSec ∧ lsa.ttlSec ≤ maxLsaTtlSec) ∧
    lsa.adjacencies.length ≤ maxLsaAdjacencies ∧ lsa.topics.length ≤ maxLsaTopicAds ∧
    (∀ ad ∈ lsa.topics, ValidAd ad) ∧
    (lsa.topics.map fun ad => (ad.topic, ad.partition)).Nodup := by
  simp only [validLsa, Bool.and_eq_true, decide_eq_true_eq, validTopicAds_iff, and_assoc]

/-- `u64::from(ttl_sec).saturating_mul(1_000)`. -/
def ttlMs (lsa : Lsa) : Nat := satMul lsa.ttlSec.toNat 1000

end Control
end MeshBus
