import MeshBus.Types

/-!
# Wire

The packets of the data plane as `mb-wire` defines them, with the validated destination list of a
multicast packet and the encoded length the forwarder charges for a packet.

`MulticastPayload` can only be built by `MulticastPayload.new`; what `new` checks (1 to 64
destinations, pairwise distinct, sorted, the encoding within the forward payload limit) is a field
of the structure.
-/

namespace MeshBus
namespace Wire

def maxPayloadLen : Nat := 1024 * 1024
def forwardHeaderLen : Nat := 88
def maxForwardPayloadLen : Nat := maxPayloadLen - forwardHeaderLen
def maxMulticastDestinations : Nat := 64
def multicastCountLen : Nat := 2
def nodeIdLen : Nat := 32

inductive MulticastPayloadError where
  | headerTooShort (length : Nat)
  | emptyDestinations
  | tooManyDestinations (count : Nat)
  | duplicateDestination (destination : NodeId)
  | destinationListTruncated (expected actual : Nat)
  | payloadTooLarge (length : Nat)
deriving DecidableEq

def multicastPrefixLen (destinationCount : Nat) : Nat :=
  satAdd multicastCountLen (satMul destinationCount nodeIdLen)

/-- The first element equal to its successor: `windows(2).find(|pair| pair[0] == pair[1])`. -/
def firstRepeat : List NodeId → Option NodeId
  | a :: b :: rest => if a = b then some a else firstRepeat (b :: rest)
  | _ => none

def canonicalizeDestinations (destinations : List NodeId) :
    Except MulticastPayloadError (List NodeId) :=
  if destinations.isEmpty then .error .emptyDestinations
  else if maxMulticastDestinations < destinations.length then
    .error (.tooManyDestinations destinations.length)
  else
    let sorted := destinations.insertionSort (· ≤ ·)
    match firstRepeat sorted with
    | some duplicate => .error (.duplicateDestination duplicate)
    | none => .ok sorted

theorem pairwise_lt_of_firstRepeat {l : List NodeId} (hs : l.Pairwise (· ≤ ·))
    (h : firstRepeat l = none) : l.Pairwise (· < ·) := by
  induction l with
  | nil => exact .nil
  | cons a l ih =>
    cases l with
    | nil => simp
    | cons b rest =>
      simp only [firstRepeat] at h
      split at h
      · cases h
      · rename_i hab
        have hlt : a < b := lt_of_le_of_ne (List.rel_of_pairwise_cons hs (by simp)) hab
        have htail := ih (List.Pairwise.of_cons hs) h
        refine List.pairwise_cons.mpr ⟨?_, htail⟩
        intro c hc
        rcases List.mem_cons.mp hc with rfl | hc
        · exact hlt
        · exact lt_trans hlt (List.rel_of_pairwise_cons htail hc)

theorem firstRepeat_of_pairwise_lt {l : List NodeId} (hs : l.Pairwise (· < ·)) :
    firstRepeat l = none := by
  induction l with
  | nil => rfl
  | cons a l ih =>
    cases l with
    | nil => rfl
    | cons b rest =>
      have hlt : a < b := List.rel_of_pairwise_cons hs (by simp)
      simp only [firstRepeat, if_neg hlt.ne]
      exact ih hs.of_cons

theorem canonicalizeDestinations_ok {ds sorted : List NodeId}
    (h : canonicalizeDestinations ds = .ok sorted) :
    sorted = ds.insertionSort (· ≤ ·) ∧ sorted ≠ [] ∧ sorted.length ≤ maxMulticastDestinations ∧
      sorted.Pairwise (· < ·) := by
  simp only [canonicalizeDestinations] at h
  split at h
  · cases h
  · rename_i hne
    split at h
    · cases h
    · rename_i hlen
      split at h
      · cases h
      · rename_i hrep
        cases h
        refine ⟨rfl, ?_, ?_, pairwise_lt_of_firstRepeat (List.pairwise_insertionSort _ _) hrep⟩
        · intro hnil
          have := congrArg List.length hnil
          rw [List.length_insertionSort] at this
          simp_all
        · rw [List.length_insertionSort]; omega

structure MulticastPayload where
  destinations : List NodeId
  body : Bytes
  nonempty : destinations ≠ []
  count_le : destinations.length ≤ maxMulticastDestinations
  sorted : destinations.Pairwise (· < ·)
  len_le : satAdd (multicastPrefixLen destinations.length) body.length ≤ maxForwardPayloadLen

def MulticastPayload.new (destinations : List NodeId) (body : Bytes) :
    Except MulticastPayloadError MulticastPayload :=
  match h : canonicalizeDestinations destinations with
  | .error e => .error e
  | .ok sorted =>
    let encodedLen := satAdd (multicastPrefixLen sorted.length) body.length
    if hlen : maxForwardPayloadLen < encodedLen then .error (.payloadTooLarge encodedLen)
    else
      have hok := canonicalizeDestinations_ok h
      .ok ⟨sorted, body, hok.2.1, hok.2.2.1, hok.2.2.2, Nat.le_of_not_lt hlen⟩

theorem MulticastPayload.new_ok {destinations : List NodeId} {body : Bytes} {m : MulticastPayload}
    (h : MulticastPayload.new destinations body = .ok m) :
    m.destinations = destinations.insertionSort (· ≤ ·) ∧ m.body = body := by
  simp only [MulticastPayload.new] at h
  split at h
  · cases h
  · rename_i sorted hsorted
    split at h
    · cases h
    · cases h
      exact ⟨(canonicalizeDestinations_ok hsorted).1, rfl⟩

/-- A list that is already canonical is kept as it is. -/
theorem canonicalizeDestinations_sorted {ds : List NodeId} (hne : ds ≠ [])
    (hcount : ds.length ≤ maxMulticastDestinations) (hsorted : ds.Pairwise (· < ·)) :
    canonicalizeDestinations ds = .ok ds := by
  have hsort : ds.insertionSort (· ≤ ·) = ds :=
    (hsorted.imp le_of_lt).insertionSort_eq
  simp only [canonicalizeDestinations, List.isEmpty_iff, hne, if_false, Nat.not_lt.mpr hcount,
    hsort, firstRepeat_of_pairwise_lt hsorted]

theorem canonicalizeDestinations_of_nodup {ds : List NodeId} (hne : ds ≠ [])
    (hcount : ds.length ≤ maxMulticastDestinations) (hnd : ds.Nodup) :
    canonicalizeDestinations ds = .ok (ds.insertionSort (· ≤ ·)) := by
  have hsorted : (ds.insertionSort (· ≤ ·)).Pairwise (· ≤ ·) := List.pairwise_insertionSort _ _
  have hdistinct : (ds.insertionSort (· ≤ ·)).Pairwise (· ≠ ·) :=
    (List.perm_insertionSort _ ds).nodup_iff.mpr hnd
  have hlt : (ds.insertionSort (· ≤ ·)).Pairwise (· < ·) :=
    (hsorted.and hdistinct).imp fun h => lt_of_le_of_ne h.1 h.2
  simp only [canonicalizeDestinations, List.isEmpty_iff, hne, if_false, Nat.not_lt.mpr hcount,
    firstRepeat_of_pairwise_lt hlt]

theorem multicastPrefixLen_eq {n : Nat} (h : n ≤ maxMulticastDestinations) :
    multicastPrefixLen n = 2 + 32 * n := by
  unfold maxMulticastDestinations at h
  unfold multicastPrefixLen multicastCountLen nodeIdLen
  rw [satMul_eq (by unfold u64Max; omega), satAdd_eq (by unfold u64Max; omega), Nat.mul_comm]

theorem multicastPrefixLen_mono {a b : Nat} (h : a ≤ b) :
    multicastPrefixLen a ≤ multicastPrefixLen b := by
  have hmul : a * nodeIdLen ≤ b * nodeIdLen := Nat.mul_le_mul_right _ h
  simp only [multicastPrefixLen, satAdd, satMul]
  omega

/-- A nonempty part of an accepted list is accepted. -/
theorem MulticastPayload.new_sublist (m : MulticastPayload) {ds : List NodeId} (hne : ds ≠ [])
    (hsub : ds.Sublist m.destinations) :
    ∃ m', MulticastPayload.new ds m.body = .ok m' ∧ m'.destinations = ds ∧ m'.body = m.body := by
  have hcount := hsub.length_le.trans m.count_le
  have hcanon := canonicalizeDestinations_sorted hne hcount (m.sorted.sublist hsub)
  have hlen : satAdd (multicastPrefixLen ds.length) m.body.length ≤ maxForwardPayloadLen := by
    have hpre := multicastPrefixLen_mono hsub.length_le
    have := m.len_le
    simp only [satAdd] at this ⊢
    omega
  refine ⟨⟨ds, m.body, hne, hcount, m.sorted.sublist hsub, hlen⟩, ?_, rfl, rfl⟩
  simp only [MulticastPayload.new]
  split
  · rename_i e he
    rw [hcanon] at he
    cases he
  · rename_i sorted he
    rw [hcanon] at he
    cases he
    rw [dif_neg (Nat.not_lt.mpr hlen)]

/-- An accepted list is accepted again. -/
theorem MulticastPayload.new_self (m : MulticastPayload) :
    MulticastPayload.new m.destinations m.body = .ok m := by
  obtain ⟨m', hm', hds, hb⟩ := m.new_sublist m.nonempty (List.Sublist.refl _)
  rw [hm']
  cases m
  cases m'
  cases hds
  cases hb
  rfl

/-- The order in which the destinations are listed does not matter. -/
theorem canonicalizeDestinations_perm {ds ds' : List NodeId} (h : ds'.Perm ds) :
    canonicalizeDestinations ds' = canonicalizeDestinations ds := by
  have hsort : ds'.insertionSort (· ≤ ·) = ds.insertionSort (· ≤ ·) := by
    refine List.Perm.eq_of_pairwise' (List.pairwise_insertionSort _ _)
      (List.pairwise_insertionSort _ _) ?_
    exact (List.perm_insertionSort _ _).trans (h.trans (List.perm_insertionSort _ _).symm)
  simp only [canonicalizeDestinations, hsort, h.length_eq, List.isEmpty_iff_length_eq_zero]

theorem MulticastPayload.new_perm {ds ds' : List NodeId} (h : ds'.Perm ds) {body : Bytes}
    {m : MulticastPayload} (hnew : MulticastPayload.new ds body = .ok m) :
    MulticastPayload.new ds' body = .ok m := by
  have hcanon := canonicalizeDestinations_perm h
  simp only [MulticastPayload.new] at hnew ⊢
  split at hnew
  · cases hnew
  · rename_i sorted hsorted
    rw [hsorted] at hcanon
    split at hnew
    · cases hnew
    · rename_i hlen
      cases hnew
      split
      · rename_i e he
        cases hcanon.symm.trans he
      · rename_i sorted' he
        cases hcanon.symm.trans he
        rw [dif_neg hlen]

theorem satAdd_le_maxForwardPayloadLen {a b : Nat} :
    satAdd a b ≤ maxForwardPayloadLen ↔ a + b ≤ maxForwardPayloadLen := by
  have hmax : maxForwardPayloadLen < u64Max := by decide
  unfold satAdd
  omega

/-- What `MulticastPayload::new` accepts. -/
theorem MulticastPayload.new_iff {ds : List NodeId} {body : Bytes} :
    (∃ m, MulticastPayload.new ds body = .ok m) ↔
      (1 ≤ ds.length ∧ ds.length ≤ maxMulticastDestinations) ∧ ds.Nodup ∧
        2 + 32 * ds.length + body.length ≤ maxForwardPayloadLen := by
  have hperm := List.perm_insertionSort (· ≤ ·) ds
  constructor
  · rintro ⟨m, hm⟩
    obtain ⟨hds, hbody⟩ := MulticastPayload.new_ok hm
    have hlength : m.destinations.length = ds.length := by rw [hds, hperm.length_eq]
    have hpos : 0 < m.destinations.length := List.length_pos_iff.mpr m.nonempty
    have hcount := m.count_le
    have hlen := m.len_le
    rw [multicastPrefixLen_eq hcount, satAdd_le_maxForwardPayloadLen, hlength, hbody] at hlen
    refine ⟨⟨by omega, by omega⟩, ?_, hlen⟩
    rw [← hperm.nodup_iff, ← hds]
    exact m.sorted.imp ne_of_lt
  · rintro ⟨⟨hpos, hcount⟩, hnd, hlen⟩
    have hcanon := canonicalizeDestinations_of_nodup (List.length_pos_iff.mp hpos) hcount hnd
    have hfit : ¬ maxForwardPayloadLen <
        satAdd (multicastPrefixLen (ds.insertionSort (· ≤ ·)).length) body.length := by
      rw [Nat.not_lt, satAdd_le_maxForwardPayloadLen, hperm.length_eq, multicastPrefixLen_eq hcount]
      exact hlen
    simp only [MulticastPayload.new]
    split
    · rename_i e he
      rw [hcanon] at he
      cases he
    · rename_i sorted hs
      rw [hcanon] at hs
      cases hs
      rw [dif_neg hfit]
      exact ⟨_, rfl⟩

inductive PacketType where
  | unicast
  | multicast
  | circuitData
  | circuitControl
deriving DecidableEq

inductive Priority where
  | p0
  | p1
  | p2
  | p3
deriving DecidableEq

def ForwardFlags.supported : UInt32 := 0b111

/-- Flag bits, built by `empty` or by the checking `from_bits`. -/
structure ForwardFlags where
  bits : UInt32
  valid : bits &&& ~~~ForwardFlags.supported = 0
deriving DecidableEq

namespace ForwardFlags

def conflatable : UInt32 := 0b010

def empty : ForwardFlags := ⟨0, by decide⟩

def fromBits (bits : UInt32) : Option ForwardFlags :=
  if h : bits &&& ~~~supported = 0 then some ⟨bits, h⟩ else none

def contains (flags : ForwardFlags) (flag : UInt32) : Bool := flags.bits &&& flag == flag

end ForwardFlags

structure ForwardHeader where
  packetType : PacketType
  priority : Priority
  ttl : UInt8
  flags : ForwardFlags
  destination : NodeId
  source : NodeId
  flowId : UInt64
  conflateKey : UInt64
deriving DecidableEq

structure ForwardPacket where
  header : ForwardHeader
  multicastDestinations : List NodeId
  payload : Bytes
deriving DecidableEq

def ForwardPacket.encodedLen (packet : ForwardPacket) : Nat :=
  let multicastPrefix :=
    if packet.header.packetType = .multicast then
      multicastPrefixLen packet.multicastDestinations.length
    else 0
  satAdd (satAdd forwardHeaderLen multicastPrefix) packet.payload.length

theorem ForwardPacket.encodedLen_le (packet : ForwardPacket) : packet.encodedLen ≤ u64Max :=
  Nat.min_le_right _ _

theorem ForwardPacket.encodedLen_pos (packet : ForwardPacket) : 0 < packet.encodedLen := by
  have hmax : forwardHeaderLen < u64Max := by decide
  have hheader : 0 < forwardHeaderLen := by decide
  simp only [encodedLen, satAdd]
  omega

end Wire
end MeshBus
