import MeshBus.Runtime.Prost

/-!
# Runtime.Validators

The limits of an LSA are written three times: in `encode_control_frame`, in `decode_lsa` and in
`ControlPlane::valid_lsa`. Here the three are shown to accept the same LSAs, and a relayed LSA is
shown to keep the bytes and the signature it came with.
-/

namespace MeshBus
namespace Runtime

open Control Wire

/-! ## Parts -/

theorem decodeNodeId_bytes (node : NodeId) : decodeNodeId node.bytes = .ok node := by
  rw [decodeNodeId, dif_pos node.length_bytes]

theorem decodeAdjacency_wire (a : Adjacency) :
    decodeAdjacency ⟨a.peer.bytes, UInt32.ofNat a.cost.val⟩ = .ok a := by
  obtain ⟨peer, ⟨val, pos, lt⟩⟩ := a
  have hval : (UInt32.ofNat val).toNat = val :=
    UInt32.toNat_ofNat_of_lt' (by unfold UInt32.size; omega)
  simp only [decodeAdjacency, decodeNodeId_bytes, bind, Except.bind, hval, dif_pos lt, LinkCost.new,
    dif_neg (Nat.ne_of_gt pos)]

theorem decodeTopicAd_wire {ad : TopicAd} (h : ValidAd ad) :
    decodeTopicAd ⟨ad.topic, ad.partition, ad.roles.bits.toUInt32, ad.headSeq, ad.tailSeq⟩ =
      .ok ad := by
  simp only [decodeTopicAd, validateTopicAd_ok.mpr ⟨h, rfl⟩, bind, Except.bind]

/-- What `validate_topic_ad` lets through is within the limits. -/
theorem decodeTopicAd_ok {wire : Proto.TopicAd} {ad : TopicAd} (h : decodeTopicAd wire = .ok ad) :
    ValidAd ad := by
  obtain ⟨roles, hroles, h⟩ := ok_bind h
  cases h
  unfold validateTopicAd at hroles
  split at hroles
  · cases hroles
  · rename_i hname
    split at hroles
    · cases hroles
    · rename_i hlen
      split at hroles
      · cases hroles
      · rename_i hpart
        exact ⟨by simpa using hname, Nat.not_lt.mp hlen, Nat.not_lt.mp hpart⟩

/-! ## Whole LSAs -/

/-- `decode_lsa` returns valid LSAs only. -/
theorem decodeLsa_valid {wire : Proto.Lsa} {lsa : Lsa} (h : decodeLsa wire = .ok lsa) :
    wire.origin.length = 32 ∧ validLsa lsa = true := by
  obtain ⟨origin, horigin, h⟩ := ok_bind h
  obtain ⟨_, httl, h⟩ := ok_bind h
  obtain ⟨_, hadj, h⟩ := ok_bind h
  obtain ⟨_, htop, h⟩ := ok_bind h
  obtain ⟨adjacencies, hadjs, h⟩ := ok_bind h
  obtain ⟨topics, htopics, h⟩ := ok_bind h
  rw [mapM_ok] at hadjs htopics
  have hlen : wire.origin.length = 32 := by
    rw [decodeNodeId] at horigin
    split at horigin
    · rename_i hlen
      exact hlen
    · cases horigin
  split at h
  · cases h
  · rename_i hcard
    cases h
    refine ⟨hlen, validLsa_iff.mpr ⟨ensureTtl_ok.mp httl, ?_, ?_, ?_, ?_⟩⟩
    · rw [← hadjs.length_eq]
      exact ensureLimit_ok.mp hadj
    · rw [← htopics.length_eq]
      exact ensureLimit_ok.mp htop
    · intro ad had
      obtain ⟨wireAd, -, hwire⟩ := mem_of_forall₂ htopics had
      exact decodeTopicAd_ok hwire
    · exact card_topics_iff.mp (not_not.mp hcard)

/-- `decode_lsa` reads a valid LSA back. -/
theorem decodeLsa_wireLsa {lsa : Lsa} (h : validLsa lsa = true) :
    decodeLsa (wireLsa lsa) = .ok lsa := by
  obtain ⟨httl, hadj, htop, hads, hnodup⟩ := validLsa_iff.mp h
  have hadjs : (wireLsa lsa).adjacencies.mapM decodeAdjacency = .ok lsa.adjacencies := by
    rw [mapM_ok, wireLsa, List.forall₂_map_left_iff]
    exact List.forall₂_same.mpr fun a _ => decodeAdjacency_wire a
  have htopics : (wireLsa lsa).topics.mapM decodeTopicAd = .ok lsa.topics := by
    rw [mapM_ok, wireLsa, List.forall₂_map_left_iff]
    exact List.forall₂_same.mpr fun ad had => decodeTopicAd_wire (hads ad had)
  have h1 : ensureTtl (wireLsa lsa).ttlSec = .ok () := ensureTtl_ok.mpr httl
  have h2 : ensureLimit "Lsa.adjacencies" (wireLsa lsa).adjacencies.length maxLsaAdjacencies =
      .ok () := by
    rw [ensureLimit_ok, wireLsa, List.length_map]
    exact hadj
  have h3 : ensureLimit "Lsa.topics" (wireLsa lsa).topics.length maxLsaTopicAds = .ok () := by
    rw [ensureLimit_ok, wireLsa, List.length_map]
    exact htop
  have h0 : decodeNodeId (wireLsa lsa).origin = .ok lsa.origin := decodeNodeId_bytes lsa.origin
  simp only [decodeLsa, h0, h1, h2, h3, hadjs, htopics, bind, Except.bind]
  rw [if_neg (not_not.mpr (card_topics_iff.mpr hnodup))]
  rfl

/-! ## Frames -/

/-- The protobuf library reads back the two messages that carry an LSA. -/
structure ReadsBack (prost : Proto.Decoders) (lsa : Lsa) (signature : Bytes) : Prop where
  inner : prost.lsa (wireLsa lsa).encode = some (wireLsa lsa)
  outer : prost.signedLsa (Proto.SignedLsa.encode ⟨(wireLsa lsa).encode, signature⟩) =
    some ⟨(wireLsa lsa).encode, signature⟩

/-- The message of default values, which is written as no bytes. -/
def blankLsa : Proto.Lsa := ⟨[], 0, 0, [], [], 0⟩

example : blankLsa.encode = [] := rfl

/-- The encoder, the decoder and `valid_lsa` accept the same LSAs. What the encoder writes is
decoded to the same LSA and signature; what the decoder accepts is encoded again with the bytes and
the signature it came with, whatever else those bytes hold. -/
theorem lsa_validators_agree (prost : Proto.Decoders)
    (hblank : prost.lsa blankLsa.encode = some blankLsa) :
    (∀ (lsa : Lsa) (signature : Bytes),
      ((∃ frame, encodeControlFrame (.lsa ⟨lsa, [], signature⟩) = .ok frame) ↔
        validLsa lsa = true) ∧
      (ReadsBack prost lsa signature →
        ∀ frame, encodeControlFrame (.lsa ⟨lsa, [], signature⟩) = .ok frame →
          decodeControlFrame prost frame = .ok (.lsa ⟨lsa, encodeLsa lsa, signature⟩))) ∧
    ∀ (frame : WireFrame) (message : LsaMessage),
      decodeControlFrame prost frame = .ok (.lsa message) →
      validLsa message.lsa = true ∧ ∃ signed, prost.signedLsa frame.payload = some signed ∧
        encodeControlFrame (.lsa message) = .ok (.control .lsa signed.encode) := by
  refine ⟨?_, ?_⟩
  · intro lsa signature
    have hencode : ∀ frame, encodeControlFrame (.lsa ⟨lsa, [], signature⟩) = .ok frame ↔
        validLsa lsa = true ∧
          frame = .control .lsa (Proto.SignedLsa.encode ⟨encodeLsa lsa, signature⟩) :=
      fun frame => encodeControlFrame_lsa
    refine ⟨⟨?_, ?_⟩, ?_⟩
    · rintro ⟨frame, hframe⟩
      exact ((hencode frame).mp hframe).1
    · intro hvalid
      exact ⟨_, (hencode _).mpr ⟨hvalid, rfl⟩⟩
    · intro hreads frame hframe
      obtain ⟨hvalid, rfl⟩ := (hencode frame).mp hframe
      exact decodeControlFrame_lsa.mpr ⟨rfl, rfl, ⟨encodeLsa lsa, signature⟩, wireLsa lsa,
        hreads.outer, hreads.inner, decodeLsa_wireLsa hvalid, rfl, rfl⟩
  · intro frame message hframe
    obtain ⟨-, -, signed, wire, hsigned, hwire, hlsa, hbytes, hsig⟩ :=
      decodeControlFrame_lsa.mp hframe
    obtain ⟨horigin, hvalid⟩ := decodeLsa_valid hlsa
    -- No bytes would be the blank message, whose origin is refused.
    have hne : signed.lsaBytes ≠ [] := by
      intro hnil
      rw [hnil] at hwire
      cases hblank.symm.trans hwire
      cases horigin
    have heq : signedLsa message = signed := by
      simp [signedLsa, hbytes, hsig, hne]
    exact ⟨hvalid, signed, hsigned, encodeControlFrame_lsa.mpr ⟨hvalid, by rw [heq]⟩⟩

theorem length_encodeLsa_lt {lsa : Lsa} (h : validLsa lsa = true) :
    (encodeLsa lsa).length < 2 ^ 64 := by
  have hlen := length_encodeLsa_le h
  obtain ⟨-, -, hcount, hads, -⟩ := validLsa_iff.mp h
  have hbytes : adsBytes lsa.topics ≤
      lsa.topics.length * (maxTopicNameLen + maxTopicPartitionLen) := by
    refine (List.sum_le_card_nsmul _ (maxTopicNameLen + maxTopicPartitionLen) ?_).trans_eq ?_
    · intro n hn
      obtain ⟨ad, had, rfl⟩ := List.mem_map.mp hn
      exact Nat.add_le_add (hads ad had).2.1 (hads ad had).2.2
    · rw [List.length_map, smul_eq_mul]
  have hall := hbytes.trans (Nat.mul_le_mul_right _ hcount)
  have hmax : maxLsaTopicAds * (maxTopicNameLen + maxTopicPartitionLen) + lsaOverhead < 2 ^ 64 := by
    decide
  omega

/-- The readers of `Runtime.Prost` read back every valid LSA. -/
theorem readsBack_readers {lsa : Lsa} (h : validLsa lsa = true) {signature : Bytes}
    (hsig : signature.length < 2 ^ 64) : ReadsBack Proto.readers lsa signature := by
  obtain ⟨-, -, -, hads, -⟩ := validLsa_iff.mp h
  have hname : maxTopicNameLen < 2 ^ 64 := by decide
  have hpart : maxTopicPartitionLen < 2 ^ 64 := by decide
  refine ⟨Proto.readers_encode.2.1 _ ⟨?_, ?_, ?_⟩,
    Proto.readers_encode.1 _ ⟨length_encodeLsa_lt h, hsig⟩⟩
  · change lsa.origin.bytes.length < 2 ^ 64
    rw [lsa.origin.length_bytes]
    omega
  · intro wire hwire
    obtain ⟨a, -, rfl⟩ := List.mem_map.mp hwire
    have hlen := (MeshBus.Proto.le_length_lenField 10 _).trans (length_encode_adjacency a)
    refine ⟨?_, ?_⟩
    · change a.peer.bytes.length < 2 ^ 64
      rw [a.peer.length_bytes]
      omega
    · rw [Proto.encode_adjacency]
      omega
  · intro wire hwire
    obtain ⟨ad, had, rfl⟩ := List.mem_map.mp hwire
    obtain ⟨-, htopic, hpartition⟩ := hads ad had
    have hlen := (MeshBus.Proto.le_length_lenField 13 _).trans (length_encode_topicAd (hads ad had))
    have hsum : maxTopicNameLen + maxTopicPartitionLen + 35 < 2 ^ 64 := by decide
    refine ⟨⟨htopic.trans_lt hname, hpartition.trans_lt hpart⟩, ?_⟩
    rw [Proto.encode_topicAd]
    omega

/-- An LSA of node 2 with one link and one subscription. -/
def signedSample : Lsa :=
  ⟨.ofByte 2, 1, 5, 30, [⟨.ofByte 1, ⟨3, by decide, by decide⟩⟩], [⟨[116], [], .subscribe, 0, 0⟩]⟩

/-- The same LSA as a later version writes it, with field 21 set. -/
def laterBytes : Bytes := encodeLsa signedSample ++ [0xa8, 0x01, 0x01]

theorem lsa_validators_agree_later :
    (∃ frame, encodeControlFrame (.lsa ⟨signedSample, [], [9]⟩) = .ok frame ∧
      decodeControlFrame Proto.readers frame =
        .ok (.lsa ⟨signedSample, encodeLsa signedSample, [9]⟩)) ∧
    decodeControlFrame Proto.readers (.control .lsa (Proto.SignedLsa.encode ⟨laterBytes, [9]⟩)) =
      .ok (.lsa ⟨signedSample, laterBytes, [9]⟩) ∧
    encodeControlFrame (.lsa ⟨signedSample, laterBytes, [9]⟩) =
      .ok (.control .lsa (Proto.SignedLsa.encode ⟨laterBytes, [9]⟩)) := by
  have hvalid : validLsa signedSample = true := by decide +kernel
  obtain ⟨hsends, hrelays⟩ := lsa_validators_agree Proto.readers rfl
  obtain ⟨hiff, hdecode⟩ := hsends signedSample [9]
  obtain ⟨frame, hframe⟩ := hiff.mpr hvalid
  have hread : Proto.readers.signedLsa (Proto.SignedLsa.encode ⟨laterBytes, [9]⟩) =
      some ⟨laterBytes, [9]⟩ :=
    Proto.readers_encode.1 _ ⟨by decide +kernel, by decide⟩
  have hlater : decodeControlFrame Proto.readers
      (.control .lsa (Proto.SignedLsa.encode ⟨laterBytes, [9]⟩)) =
        .ok (.lsa ⟨signedSample, laterBytes, [9]⟩) := by
    decide +kernel
  obtain ⟨-, signed, hsigned, hencode⟩ := hrelays _ _ hlater
  cases hread.symm.trans hsigned
  exact ⟨⟨frame, hframe, hdecode (readsBack_readers hvalid (by decide)) frame hframe⟩, hlater,
    hencode⟩

end Runtime
end MeshBus
