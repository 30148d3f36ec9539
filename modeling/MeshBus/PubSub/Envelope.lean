import MeshBus.Lib.ProtoRead
import MeshBus.PubSub.Topic

/-!
# PubSub.Envelope

A reader of the envelope message, which skips the fields it does not know. It takes any bytes for
the topic; `prost` asks for UTF-8, which the name of a topic is. It reads back every envelope
(`reads_envelopeLayout`), so that what other modules assume of the protobuf library can be met.
-/

namespace MeshBus
namespace PubSub

open Wire MeshBus.Proto

def envelopeFields (m : WireEnvelope) : List Field :=
  singularBytes 1 m.origin ++ (singularBytes 2 m.topic ++ (singularBytes 3 m.partition ++
    (singularVarint 4 m.seq.toNat ++ (singularVarint 5 m.tsMs.toNat ++ singularBytes 6 m.payload))))

def envelopeOf (fields : List Field) : WireEnvelope :=
  ⟨bytesOf 1 fields, bytesOf 2 fields, bytesOf 3 fields, UInt64.ofNat (varintOf 4 fields),
    UInt64.ofNat (varintOf 5 fields), bytesOf 6 fields⟩

theorem fits_envelopeFields (m : WireEnvelope)
    (h : m.origin.length < 2 ^ 64 ∧ m.topic.length < 2 ^ 64 ∧ m.partition.length < 2 ^ 64 ∧
      m.payload.length < 2 ^ 64) : ∀ f ∈ envelopeFields m, f.Fits := by
  obtain ⟨horigin, htopic, hpartition, hpayload⟩ := h
  intro f hf
  simp only [envelopeFields, List.mem_append] at hf
  rcases hf with hf | hf | hf | hf | hf | hf
  · exact fits_singularBytes (by decide) horigin f hf
  · exact fits_singularBytes (by decide) htopic f hf
  · exact fits_singularBytes (by decide) hpartition f hf
  · exact fits_singularVarint (by decide) m.seq.toNat_lt f hf
  · exact fits_singularVarint (by decide) m.tsMs.toNat_lt f hf
  · exact fits_singularBytes (by decide) hpayload f hf

theorem envelopeOf_envelopeFields (m : WireEnvelope) : envelopeOf (envelopeFields m) = m := by
  simp [envelopeOf, envelopeFields, bytesOf, varintOf]

def envelopeLayout : Layout WireEnvelope where
  fields := envelopeFields
  build fields := some (envelopeOf fields)
  Ok m := m.origin.length < 2 ^ 64 ∧ m.topic.length < 2 ^ 64 ∧ m.partition.length < 2 ^ 64 ∧
    m.payload.length < 2 ^ 64
  fits := fits_envelopeFields
  build_fields m _ := congrArg some (envelopeOf_envelopeFields m)

theorem encode_envelope (m : WireEnvelope) : envelopeLayout.encode m = m.encode := by
  simp only [Layout.encode, envelopeLayout, envelopeFields, List.flatMap_append,
    flatMap_singularBytes, flatMap_singularVarint, WireEnvelope.encode]

/-- The reader reads back what was written for an envelope. -/
def Reads (prost : Bytes → Option WireEnvelope) (e : Envelope) : Prop :=
  prost (EnvelopeCodec.wire e).encode = some (EnvelopeCodec.wire e)

theorem reads_envelopeLayout {e : Envelope} (h : e.payload.length < 2 ^ 64) :
    Reads envelopeLayout.read e := by
  obtain ⟨-, hname, hpartition⟩ := validateTopic_iff.mp e.topic.valid
  unfold maxTopicNameLen at hname
  unfold maxPartitionLen at hpartition
  have hok : envelopeLayout.Ok (EnvelopeCodec.wire e) := by
    refine ⟨?_, ?_, ?_, h⟩
    · change e.origin.bytes.length < 2 ^ 64
      rw [e.origin.length_bytes]
      omega
    · change e.topic.name.length < 2 ^ 64
      omega
    · change e.topic.partition.length < 2 ^ 64
      omega
  rw [Reads, ← encode_envelope]
  exact envelopeLayout.read_encode hok

end PubSub
end MeshBus
