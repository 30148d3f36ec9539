import MeshBus.Lib.ProtoRead
import MeshBus.Runtime.FrameSize

/-!
# Runtime.Prost

Readers of the messages of `control.proto`, which skip the fields they do not know. They read back
every message the encoders write, so that what other modules assume of the protobuf library can
be met.
-/

namespace MeshBus
namespace Runtime
namespace Proto

open MeshBus.Proto

/-! ## Layouts -/

def adjacencyLayout : Layout Adjacency where
  fields m := singularBytes 1 m.peer ++ singularVarint 2 m.cost.toNat
  build fields := some ⟨bytesOf 1 fields, UInt32.ofNat (varintOf 2 fields)⟩
  Ok m := m.peer.length < 2 ^ 64
  fits m h f hf := by
    have hcost := m.cost.toNat_lt
    rcases List.mem_append.mp hf with hf | hf
    · exact fits_singularBytes (by omega) h f hf
    · exact fits_singularVarint (by omega) (by omega) f hf
  build_fields m h := by simp [bytesOf, varintOf]

def topicAdLayout : Layout TopicAd where
  fields m := singularBytes 1 m.topic ++ (singularBytes 2 m.partition ++
    (singularVarint 3 m.role.toNat ++ (singularVarint 4 m.headSeq.toNat ++
      singularVarint 5 m.tailSeq.toNat)))
  build fields := some ⟨bytesOf 1 fields, bytesOf 2 fields, UInt32.ofNat (varintOf 3 fields),
    UInt64.ofNat (varintOf 4 fields), UInt64.ofNat (varintOf 5 fields)⟩
  Ok m := m.topic.length < 2 ^ 64 ∧ m.partition.length < 2 ^ 64
  fits m h f hf := by
    have hrole := m.role.toNat_lt
    simp only [List.mem_append] at hf
    rcases hf with hf | hf | hf | hf | hf
    · exact fits_singularBytes (by omega) h.1 f hf
    · exact fits_singularBytes (by omega) h.2 f hf
    · exact fits_singularVarint (by omega) (by omega) f hf
    · exact fits_singularVarint (by omega) m.headSeq.toNat_lt f hf
    · exact fits_singularVarint (by omega) m.tailSeq.toNat_lt f hf
  build_fields m h := by simp [bytesOf, varintOf]

def lsaLayout : Layout Lsa where
  fields m := singularBytes 1 m.origin ++ (singularVarint 2 m.seq.toNat ++
    (singularVarint 4 m.ttlSec.toNat ++
      (repeatedBytes 10 (m.adjacencies.map adjacencyLayout.encode) ++
      (repeatedBytes 13 (m.topics.map topicAdLayout.encode) ++ singularVarint 20 m.epoch.toNat))))
  build fields := do
    let adjacencies ← (repeatedOf 10 fields).mapM adjacencyLayout.read
    let topics ← (repeatedOf 13 fields).mapM topicAdLayout.read
    some
      { origin := bytesOf 1 fields
        seq := UInt64.ofNat (varintOf 2 fields)
        ttlSec := UInt32.ofNat (varintOf 4 fields)
        adjacencies := adjacencies
        topics := topics
        epoch := UInt32.ofNat (varintOf 20 fields) }
  Ok m := m.origin.length < 2 ^ 64 ∧
    (∀ a ∈ m.adjacencies, adjacencyLayout.Ok a ∧ (adjacencyLayout.encode a).length < 2 ^ 64) ∧
    ∀ ad ∈ m.topics, topicAdLayout.Ok ad ∧ (topicAdLayout.encode ad).length < 2 ^ 64
  fits m h f hf := by
    obtain ⟨horigin, hadj, htop⟩ := h
    have httl := m.ttlSec.toNat_lt
    have hepoch := m.epoch.toNat_lt
    simp only [List.mem_append] at hf
    rcases hf with hf | hf | hf | hf | hf | hf
    · exact fits_singularBytes (by omega) horigin f hf
    · exact fits_singularVarint (by omega) m.seq.toNat_lt f hf
    · exact fits_singularVarint (by omega) (by omega) f hf
    · refine fits_repeatedBytes (by omega) (fun content hc => ?_) f hf
      obtain ⟨a, ha, rfl⟩ := List.mem_map.mp hc
      exact (hadj a ha).2
    · refine fits_repeatedBytes (by omega) (fun content hc => ?_) f hf
      obtain ⟨ad, had, rfl⟩ := List.mem_map.mp hc
      exact (htop ad had).2
    · exact fits_singularVarint (by omega) (by omega) f hf
  build_fields m h := by
    have hadj := adjacencyLayout.mapM_read fun a ha => (h.2.1 a ha).1
    have htop := topicAdLayout.mapM_read fun ad had => (h.2.2 ad had).1
    simp [bytesOf, varintOf, repeatedOf, hadj, htop]

def signedLsaLayout : Layout SignedLsa where
  fields m := singularBytes 1 m.lsaBytes ++ singularBytes 2 m.signature
  build fields := some ⟨bytesOf 1 fields, bytesOf 2 fields⟩
  Ok m := m.lsaBytes.length < 2 ^ 64 ∧ m.signature.length < 2 ^ 64
  fits m h f hf := by
    rcases List.mem_append.mp hf with hf | hf
    · exact fits_singularBytes (by omega) h.1 f hf
    · exact fits_singularBytes (by omega) h.2 f hf
  build_fields m h := by simp [bytesOf]

def digestEntryLayout : Layout DigestEntry where
  fields m := singularBytes 1 m.origin ++ (singularVarint 2 m.epoch.toNat ++
    singularVarint 3 m.seq.toNat)
  build fields := some ⟨bytesOf 1 fields, UInt32.ofNat (varintOf 2 fields),
    UInt64.ofNat (varintOf 3 fields)⟩
  Ok m := m.origin.length < 2 ^ 64
  fits m h f hf := by
    have hepoch := m.epoch.toNat_lt
    simp only [List.mem_append] at hf
    rcases hf with hf | hf | hf
    · exact fits_singularBytes (by omega) h f hf
    · exact fits_singularVarint (by omega) (by omega) f hf
    · exact fits_singularVarint (by omega) m.seq.toNat_lt f hf
  build_fields m h := by simp [bytesOf, varintOf]

def digestLayout : Layout Digest where
  fields m := repeatedBytes 1 (m.entries.map digestEntryLayout.encode)
  build fields := ((repeatedOf 1 fields).mapM digestEntryLayout.read).map Digest.mk
  Ok m := ∀ e ∈ m.entries, digestEntryLayout.Ok e ∧ (digestEntryLayout.encode e).length < 2 ^ 64
  fits m h := by
    refine fits_repeatedBytes (by omega) fun content hc => ?_
    obtain ⟨e, he, rfl⟩ := List.mem_map.mp hc
    exact (h e he).2
  build_fields m h := by
    have hread := digestEntryLayout.mapM_read fun e he => (h e he).1
    simp [repeatedOf, hread]

def digestReqLayout : Layout DigestReq where
  fields m := repeatedBytes 1 m.origins
  build fields := some ⟨repeatedOf 1 fields⟩
  Ok m := ∀ origin ∈ m.origins, origin.length < 2 ^ 64
  fits _ h := fits_repeatedBytes (by omega) h
  build_fields m h := by simp [repeatedOf]

/-- The readers of all messages. -/
def readers : Decoders where
  signedLsa := signedLsaLayout.read
  lsa := lsaLayout.read
  digest := digestLayout.read
  digestReq := digestReqLayout.read

/-! ## The encoders write these layouts -/

theorem encode_adjacency (m : Adjacency) : adjacencyLayout.encode m = m.encode := by
  simp only [Layout.encode, adjacencyLayout, List.flatMap_append, flatMap_singularBytes,
    flatMap_singularVarint, Adjacency.encode]

theorem encode_topicAd (m : TopicAd) : topicAdLayout.encode m = m.encode := by
  simp only [Layout.encode, topicAdLayout, List.flatMap_append, flatMap_singularBytes,
    flatMap_singularVarint, TopicAd.encode]

theorem encode_lsa (m : Lsa) : lsaLayout.encode m = m.encode := by
  rw [Layout.encode]
  simp only [lsaLayout, List.flatMap_append, flatMap_singularBytes, flatMap_singularVarint,
    flatMap_repeatedBytes, List.flatMap_map, encode_adjacency, encode_topicAd, Lsa.encode]

theorem encode_signedLsa (m : SignedLsa) : signedLsaLayout.encode m = m.encode := by
  simp only [Layout.encode, signedLsaLayout, List.flatMap_append, flatMap_singularBytes,
    SignedLsa.encode]

theorem encode_digestEntry (m : DigestEntry) : digestEntryLayout.encode m = m.encode := by
  simp only [Layout.encode, digestEntryLayout, List.flatMap_append, flatMap_singularBytes,
    flatMap_singularVarint, DigestEntry.encode]

theorem encode_digest (m : Digest) : digestLayout.encode m = m.encode := by
  rw [Layout.encode]
  simp only [digestLayout, flatMap_repeatedBytes, List.flatMap_map, encode_digestEntry,
    Digest.encode]

theorem encode_digestReq (m : DigestReq) : digestReqLayout.encode m = m.encode := by
  simp only [Layout.encode, digestReqLayout, flatMap_repeatedBytes, DigestReq.encode]

/-- Every message is read back as it was written. -/
theorem readers_encode :
    (∀ m, signedLsaLayout.Ok m → readers.signedLsa m.encode = some m) ∧
    (∀ m, lsaLayout.Ok m → readers.lsa m.encode = some m) ∧
    (∀ m, digestLayout.Ok m → readers.digest m.encode = some m) ∧
    ∀ m, digestReqLayout.Ok m → readers.digestReq m.encode = some m := by
  refine ⟨?_, ?_, ?_, ?_⟩
  · intro m h
    rw [← encode_signedLsa]
    exact signedLsaLayout.read_encode h
  · intro m h
    rw [← encode_lsa]
    exact lsaLayout.read_encode h
  · intro m h
    rw [← encode_digest]
    exact digestLayout.read_encode h
  · intro m h
    rw [← encode_digestReq]
    exact digestReqLayout.read_encode h

end Proto
end Runtime
end MeshBus
