import MeshBus.Control.Own
import MeshBus.Runtime.Codec

/-!
# Runtime.FrameSize

The size of control frames against the payload limit of a frame. Digests and requests are bounded
by their element counts. An LSA of its own a node encodes to the names and partitions of its topic
ads plus at most `lsaOverhead` bytes (`length_encodeLsa_le`), and to no less than those names and
partitions (`adsBytes_le_length_encodeLsa`); the per-field limits allow sixteen times the frame
limit. A relayed LSA is as long as what arrived.
-/

namespace MeshBus
namespace Runtime

open Control ControlPlane Wire MeshBus.Proto

/-- The bytes of the names and partitions of topic ads. -/
def adsBytes (ads : List TopicAd) : Nat :=
  (ads.map fun ad => ad.topic.length + ad.partition.length).sum

/-- The most the other fields of a frame with the node's own LSA take: 256 adjacencies of 40 bytes,
35 bytes for each of 256 ads, 55 for the header of the LSA and 4 for that of the frame. -/
def lsaOverhead : Nat := 40 * maxLsaAdjacencies + 35 * maxLsaTopicAds + 55 + 4

/-! ## Messages -/

theorem length_encode_topicAd {ad : TopicAd} (h : ValidAd ad) :
    (lenField 13 (Proto.TopicAd.encode
      ⟨ad.topic, ad.partition, ad.roles.bits.toUInt32, ad.headSeq, ad.tailSeq⟩)).length ≤
      ad.topic.length + ad.partition.length + 35 := by
  obtain ⟨-, hname, hpart⟩ := h
  unfold maxTopicNameLen at hname
  unfold maxTopicPartitionLen at hpart
  have hroles : ad.roles.bits.toUInt32.toNat < 128 ^ (0 + 1) := by
    have hbits : ∀ n : Fin 256, UInt8.ofNat n.val &&& ~~~TopicRoles.all = 0 → n.val < 128 := by
      decide +kernel
    rw [UInt8.toNat_toUInt32]
    refine hbits ⟨ad.roles.bits.toNat, ad.roles.bits.toNat_lt⟩ ?_
    rw [UInt8.ofNat_toNat]
    exact ad.roles.valid.2
  have h1 : (bytesField 1 ad.topic).length ≤ 1 + (1 + 1) + ad.topic.length :=
    length_bytesField_le (by omega) (by omega)
  have h2 : (bytesField 2 ad.partition).length ≤ 1 + (2 + 1) + ad.partition.length :=
    length_bytesField_le (by omega) (by omega)
  have h3 : (varintField 3 ad.roles.bits.toUInt32.toNat).length ≤ 1 + (0 + 1) :=
    length_varintField_le (by omega) hroles
  have h4 : (varintField 4 ad.headSeq.toNat).length ≤ 11 := length_varintField_le_eleven (by omega)
  have h5 : (varintField 5 ad.tailSeq.toNat).length ≤ 11 := length_varintField_le_eleven (by omega)
  have hbody : (Proto.TopicAd.encode
      ⟨ad.topic, ad.partition, ad.roles.bits.toUInt32, ad.headSeq, ad.tailSeq⟩).length ≤
      ad.topic.length + ad.partition.length + 31 := by
    simp only [Proto.TopicAd.encode, List.length_append]
    omega
  refine (length_lenField_le (k := 2) (by omega) (lt_of_le_of_lt hbody (by omega))).trans ?_
  omega

theorem length_bytes_field (node : NodeId) : (bytesField 1 node.bytes).length ≤ 34 := by
  have h : (bytesField 1 node.bytes).length ≤ 1 + (0 + 1) + node.bytes.length :=
    length_bytesField_le (by omega) (by rw [node.length_bytes]; omega)
  rw [node.length_bytes] at h
  exact h

theorem length_encode_adjacency (a : Adjacency) :
    (lenField 10 (Proto.Adjacency.encode ⟨a.peer.bytes, UInt32.ofNat a.cost.val⟩)).length ≤ 40 := by
  have hcost : (UInt32.ofNat a.cost.val).toNat < 128 ^ (2 + 1) := by
    have := a.cost.lt
    rw [UInt32.toNat_ofNat_of_lt' (by unfold UInt32.size; omega)]
    omega
  have h1 := length_bytes_field a.peer
  have h2 : (varintField 2 (UInt32.ofNat a.cost.val).toNat).length ≤ 1 + (2 + 1) :=
    length_varintField_le (by omega) hcost
  have hbody : (Proto.Adjacency.encode ⟨a.peer.bytes, UInt32.ofNat a.cost.val⟩).length ≤ 38 := by
    simp only [Proto.Adjacency.encode, List.length_append]
    omega
  refine (length_lenField_le (k := 0) (by omega) (lt_of_le_of_lt hbody (by omega))).trans ?_
  omega

theorem length_epoch_field (epoch : UInt32) : (varintField 20 epoch.toNat).length ≤ 7 := by
  have hlt := epoch.toNat_lt
  rw [varintField]
  split
  · simp
  · have hkey : (key 20 0).length ≤ 1 + 1 := length_varint_le (by omega)
    have hn : (varint epoch.toNat).length ≤ 4 + 1 := length_varint_le (by omega)
    rw [List.length_append]
    omega

/-- The node's own LSA, from above. -/
theorem length_encodeLsa_le {lsa : Lsa} (h : validLsa lsa = true) :
    (encodeLsa lsa).length ≤ adsBytes lsa.topics + lsaOverhead - 4 := by
  obtain ⟨⟨-, httl⟩, hadj, hads, hvalid, -⟩ := validLsa_iff.mp h
  have h1 := length_bytes_field lsa.origin
  have h2 : (varintField 2 lsa.seq.toNat).length ≤ 11 := length_varintField_le_eleven (by omega)
  have h3 : (varintField 4 lsa.ttlSec.toNat).length ≤ 1 + (1 + 1) := by
    refine length_varintField_le (by omega) ?_
    have hle := UInt32.le_iff_toNat_le.mp httl
    have hmax : maxLsaTtlSec.toNat = 3600 := rfl
    omega
  have h4 : (lsa.adjacencies.flatMap fun a => lenField 10
      (Proto.Adjacency.encode ⟨a.peer.bytes, UInt32.ofNat a.cost.val⟩)).length ≤
      40 * maxLsaAdjacencies := by
    refine (length_flatMap_le (w := fun _ => 40) fun a _ => length_encode_adjacency a).trans ?_
    rw [List.map_const', List.sum_replicate, smul_eq_mul, Nat.mul_comm]
    exact Nat.mul_le_mul_left 40 hadj
  have h5 : (lsa.topics.flatMap fun ad => lenField 13 (Proto.TopicAd.encode
      ⟨ad.topic, ad.partition, ad.roles.bits.toUInt32, ad.headSeq, ad.tailSeq⟩)).length ≤
      adsBytes lsa.topics + 35 * maxLsaTopicAds := by
    refine (length_flatMap_le (w := fun ad => ad.topic.length + ad.partition.length + 35)
      fun ad had => length_encode_topicAd (hvalid ad had)).trans ?_
    rw [List.sum_map_add, List.map_const', List.sum_replicate, smul_eq_mul, Nat.mul_comm]
    exact Nat.add_le_add_left (Nat.mul_le_mul_left 35 hads) _
  have h6 := length_epoch_field lsa.epoch
  simp only [encodeLsa, wireLsa, Proto.Lsa.encode, List.length_append, List.flatMap_map]
  unfold lsaOverhead
  omega

/-- The node's own LSA, from below. -/
theorem adsBytes_le_length_encodeLsa (lsa : Lsa) :
    adsBytes lsa.topics ≤ (encodeLsa lsa).length := by
  have h : adsBytes lsa.topics ≤ (lsa.topics.flatMap fun ad => lenField 13 (Proto.TopicAd.encode
      ⟨ad.topic, ad.partition, ad.roles.bits.toUInt32, ad.headSeq, ad.tailSeq⟩)).length := by
    refine le_length_flatMap fun ad _ => ?_
    refine le_trans ?_ (le_length_lenField _ _)
    have h1 := le_length_bytesField 1 ad.topic
    have h2 := le_length_bytesField 2 ad.partition
    simp only [Proto.TopicAd.encode, List.length_append]
    omega
  simp only [encodeLsa, wireLsa, Proto.Lsa.encode, List.length_append, List.flatMap_map]
  omega

/-! ## Frames -/

/-- A message whose frame fits: relayed within the limit, or the node's own with topic ads that
leave room for the other fields. -/
def Slim (m : LsaMessage) : Prop :=
  (m.canonicalBytes ≠ [] ∧ (signedLsa m).encode.length ≤ maxPayloadLen) ∨
  (m.canonicalBytes = [] ∧ m.signature = [] ∧
    adsBytes m.lsa.topics + lsaOverhead ≤ maxPayloadLen)

theorem Slim.fits {m : LsaMessage} (h : Slim m) (hvalid : validLsa m.lsa = true) :
    (signedLsa m).encode.length ≤ maxPayloadLen := by
  rcases h with ⟨-, hle⟩ | ⟨hnil, hsig, hads⟩
  · exact hle
  · have hlsa := length_encodeLsa_le hvalid
    have hover : 4 ≤ lsaOverhead := by decide
    have hmax : maxPayloadLen < 128 ^ (2 + 1) := by decide
    have hfield : (bytesField 1 (encodeLsa m.lsa)).length ≤
        1 + (2 + 1) + (encodeLsa m.lsa).length := length_bytesField_le (by omega) (by omega)
    have hnone : bytesField 2 [] = [] := rfl
    simp only [signedLsa, hnil, hsig, List.isEmpty_nil, if_true, Proto.SignedLsa.encode,
      List.length_append, hnone, List.length_nil]
    omega

theorem digest_fits {entries : List DigestEntry} {frame : WireFrame}
    (h : encodeControlFrame (.digest entries) = .ok frame) :
    frame.payload.length ≤ maxPayloadLen := by
  rw [encodeControlFrame] at h
  obtain ⟨_, hlimit, h⟩ := ok_bind h
  cases h
  rw [ensureLimit_ok] at hlimit
  have hentry : ∀ e : DigestEntry,
      (lenField 1 (Proto.DigestEntry.encode ⟨e.origin.bytes, e.epoch, e.seq⟩)).length ≤ 53 := by
    intro e
    have h1 := length_bytes_field e.origin
    have h2 : (varintField 2 e.epoch.toNat).length ≤ 1 + (4 + 1) := by
      have := e.epoch.toNat_lt
      exact length_varintField_le (by omega) (by omega)
    have h3 : (varintField 3 e.seq.toNat).length ≤ 11 := length_varintField_le_eleven (by omega)
    have hbody : (Proto.DigestEntry.encode ⟨e.origin.bytes, e.epoch, e.seq⟩).length ≤ 51 := by
      simp only [Proto.DigestEntry.encode, List.length_append]
      omega
    refine (length_lenField_le (k := 0) (by omega) (lt_of_le_of_lt hbody (by omega))).trans ?_
    omega
  have hall : (Proto.Digest.encode ⟨entries.map fun e => ⟨e.origin.bytes, e.epoch, e.seq⟩⟩).length ≤
      53 * entries.length := by
    rw [Proto.Digest.encode, List.flatMap_map]
    refine (length_flatMap_le (w := fun _ => 53) fun e _ => hentry e).trans ?_
    rw [List.map_const', List.sum_replicate, smul_eq_mul, Nat.mul_comm]
  have hmax : 53 * maxDigestEntries ≤ maxPayloadLen := by decide
  exact hall.trans ((Nat.mul_le_mul_left 53 hlimit).trans hmax)

theorem digestReq_fits {origins : List NodeId} {frame : WireFrame}
    (h : encodeControlFrame (.digestReq origins) = .ok frame) :
    frame.payload.length ≤ maxPayloadLen := by
  rw [encodeControlFrame] at h
  obtain ⟨_, hlimit, h⟩ := ok_bind h
  cases h
  rw [ensureLimit_ok] at hlimit
  have hall : (Proto.DigestReq.encode ⟨origins.map NodeId.bytes⟩).length ≤ 34 * origins.length := by
    rw [Proto.DigestReq.encode, List.flatMap_map]
    refine (length_flatMap_le (w := fun _ => 34) fun o _ => ?_).trans ?_
    · have hlen : (lenField 1 o.bytes).length ≤ 1 + (0 + 1) + o.bytes.length :=
        length_lenField_le (by omega) (by rw [o.length_bytes]; omega)
      rw [o.length_bytes] at hlen
      exact hlen
    · rw [List.map_const', List.sum_replicate, smul_eq_mul, Nat.mul_comm]
  have hmax : 34 * maxDigestReqOrigins ≤ maxPayloadLen := by decide
  exact hall.trans ((Nat.mul_le_mul_left 34 hlimit).trans hmax)

/-! ## Received frames -/

/-- What is assumed of the protobuf library when it reads. -/
structure Standard (prost : Proto.Decoders) : Prop where
  /-- Encodings are shortest: what was read is written in no more bytes. -/
  shortest : ∀ bytes m, prost.signedLsa bytes = some m → m.encode.length ≤ bytes.length
  /-- Nothing encodes a message of default values. -/
  blank : ∀ m, prost.lsa [] = some m → m.origin = []

/-- The message was read from a frame within the limit, as `FrameDecoder` returns them. -/
def Received (prost : Proto.Decoders) (m : LsaMessage) : Prop :=
  ∃ frame : WireFrame, frame.payload.length ≤ maxPayloadLen ∧
    decodeControlFrame prost frame = .ok (.lsa m)

/-- A received LSA is relayed in no more bytes than it came in. -/
theorem Received.slim {prost : Proto.Decoders} (hprost : Standard prost) {m : LsaMessage}
    (h : Received prost m) : Slim m := by
  obtain ⟨frame, hlen, hdec⟩ := h
  obtain ⟨-, -, signed, wire, hsigned, hwire, hlsa, hbytes, hsig⟩ := decodeControlFrame_lsa.mp hdec
  have hne : signed.lsaBytes ≠ [] := by
    intro hnil
    rw [hnil] at hwire
    rw [decodeLsa, decodeNodeId, hprost.blank wire hwire] at hlsa
    cases hlsa
  have heq : signedLsa m = signed := by
    simp [signedLsa, hbytes, hsig, hne]
  refine .inl ⟨hbytes ▸ hne, ?_⟩
  rw [heq]
  exact (hprost.shortest _ _ hsigned).trans hlen

/-! ## Runs -/

/-- The inputs of a plane whose frames come off the wire and whose topic ads leave room. -/
structure SlimInput (prost : Proto.Decoders) (event : ControlEvent) : Prop where
  received : ∀ link m, event = .frame link (.lsa m) → Received prost m
  ads : ∀ ads, event = .localTopicAdsChanged ads → adsBytes ads + lsaOverhead ≤ maxPayloadLen

structure SlimPlane (p : ControlPlane) : Prop where
  own : Own p
  ads : adsBytes p.localTopicAds + lsaOverhead ≤ maxPayloadLen
  stored : ∀ o m, p.stored o = some m → Slim m

theorem adsBytes_perm {ads ads' : List TopicAd} (h : ads.Perm ads') :
    adsBytes ads = adsBytes ads' := (h.map _).sum_eq

theorem slimPlane_new (me : NodeId) (epoch : UInt32) (lastSeq : UInt64) :
    SlimPlane (newUnsecuredWithSeq me epoch lastSeq) := by
  have hlsdb : (newUnsecuredWithSeq me epoch lastSeq).lsdb = ∅ := rfl
  have hads : adsBytes [] + lsaOverhead ≤ maxPayloadLen := by decide
  refine ⟨own_new me epoch lastSeq, hads, ?_⟩
  intro o m h
  simp [ControlPlane.stored, hlsdb] at h

theorem SlimPlane.step {prost : Proto.Decoders} (hprost : Standard prost) {p q : ControlPlane}
    {now : MonoTime} {event : ControlEvent} {acts : List ControlAction} (hp : SlimPlane p)
    (hin : SlimInput prost event) (h : Outcome p now event q acts) : SlimPlane q := by
  have hown := hp.own.step h.effect
  have hads : adsBytes q.localTopicAds + lsaOverhead ≤ maxPayloadLen := by
    rcases h.localTopicAds with heq | ⟨ads, hevent, heq, -⟩
    · rw [heq]
      exact hp.ads
    · rw [heq, adsBytes_perm (List.perm_insertionSort _ _)]
      exact hin.ads ads hevent
  refine ⟨hown, hads, ?_⟩
  intro o m hm
  by_cases hme : o = q.me
  · subst hme
    rw [hown.message m hm]
    exact .inr ⟨rfl, rfl, hads⟩
  · rcases stored_step h.effect hm with hold | ⟨mid, acts', hprep, -, rfl⟩ | ⟨link, hevent⟩
    · exact hp.stored o m hold
    · have horigin := hown.origin o _ hm
      rw [nextMessage_unsecured (hprep.signer.trans hp.own.signer)] at horigin
      refine absurd ?_ hme
      rw [← horigin, h.effect.same.me]
      exact hprep.me
    · exact (hin.received link m hevent).slim hprost

/-- A frame a slim plane sends is within the limit, if it is encoded at all. -/
theorem SlimPlane.fits {q : ControlPlane} (hq : SlimPlane q) {event : ControlEvent}
    {frame : ControlFrame} (h : FrameOf q event frame) {wire : WireFrame}
    (henc : encodeControlFrame frame = .ok wire) : wire.payload.length ≤ maxPayloadLen := by
  cases h with
  | lsa hm =>
    obtain ⟨hvalid, rfl⟩ := encodeControlFrame_lsa.mp henc
    exact (hq.stored _ _ hm).fits hvalid
  | digest => exact digest_fits henc
  | digestReq => exact digestReq_fits henc

/-- Every control frame of a run fits on the wire, if the topic ads the node announces leave room
for the other fields of an LSA. -/
theorem control_frames_fit (prost : Proto.Decoders) (hprost : Standard prost) (me : NodeId)
    (epoch : UInt32) (lastSeq : UInt64) (events : List (MonoTime × ControlEvent))
    (hreceived : ∀ e ∈ events, ∀ link m, e.2 = .frame link (.lsa m) → Received prost m)
    (hads : ∀ e ∈ events, ∀ ads, e.2 = .localTopicAdsChanged ads →
      adsBytes ads + lsaOverhead ≤ maxPayloadLen)
    (q : ControlPlane) (acts : List ControlAction)
    (hrun : (newUnsecuredWithSeq me epoch lastSeq).run events = some (q, acts))
    (link : LinkId) (frame : ControlFrame) (hsend : .send link frame ∈ acts) (wire : WireFrame)
    (henc : encodeControlFrame frame = .ok wire) :
    wire.payload.length ≤ maxPayloadLen ∧ ∃ bytes, FrameEncoder.encode wire = .ok bytes := by
  have hall : ∀ action ∈ acts, ∀ link frame wire, action = .send link frame →
      encodeControlFrame frame = .ok wire → wire.payload.length ≤ maxPayloadLen := by
    refine (emitAll_out (P := SlimPlane) (R := fun e => SlimInput prost e.2) ?_
      (fun e he => ⟨hreceived e he, hads e he⟩) (slimPlane_new me epoch lastSeq) hrun).2
    intro p e p' out hp hin hstep
    have hout := handle_spec hstep
    have hp' := hp.step hprost hin hout
    refine ⟨hp', ?_⟩
    rintro action hmem link frame wire rfl henc
    exact hp'.fits (hout.frames (mem_sends.mpr hmem)) henc
  have hle := hall _ hsend link frame wire rfl henc
  exact ⟨hle, _, FrameEncoder.encode_of_le hle⟩

/-- A decoder that reads one LSA and refuses every other message. -/
def readsOnly (signed : Proto.SignedLsa) (lsa : Proto.Lsa) : Proto.Decoders where
  signedLsa bytes := if bytes = signed.encode then some signed else none
  lsa bytes := if bytes = signed.lsaBytes then some lsa else none
  digest _ := none
  digestReq _ := none

/-- An LSA of a third node. -/
def farLsa : Lsa where
  origin := .ofByte 3
  epoch := 1
  seq := 1
  ttlSec := 300
  adjacencies := []
  topics := []

def farMessage : LsaMessage where
  lsa := farLsa
  canonicalBytes := encodeLsa farLsa
  signature := []

def linkEvent (link : LinkId) (peer : UInt8) : ControlEvent :=
  .linkUp link (.ofByte peer) unitCost

/-- A node with two links announces a topic and relays what comes in on the first link. -/
theorem control_frames_fit_relayed :
    ∃ q acts wire,
      (newUnsecuredWithSeq (.ofByte 1) 1 0).run
        [(0, linkEvent 0 2), (0, linkEvent 1 4),
          (1, .localTopicAdsChanged [⟨[7], [], .subscribe, 0, 0⟩]),
          (2, .frame 0 (.lsa farMessage))] = some (q, acts) ∧
      .send 1 (.lsa farMessage) ∈ acts ∧ encodeControlFrame (.lsa farMessage) = .ok wire ∧
      wire.payload.length ≤ maxPayloadLen ∧ ∃ bytes, FrameEncoder.encode wire = .ok bytes := by
  generalize hevents : [(0, linkEvent 0 2), (0, linkEvent 1 4),
    (1, .localTopicAdsChanged [⟨[7], [], .subscribe, 0, 0⟩]),
    (2, .frame 0 (.lsa farMessage))] = events
  have hsent : (((newUnsecuredWithSeq (.ofByte 1) 1 0).run events).map fun r =>
      decide (.send 1 (.lsa farMessage) ∈ r.2)) = some true := by
    rw [← hevents]
    decide +kernel
  obtain ⟨⟨q, acts⟩, hrun, hsend⟩ := Option.map_eq_some_iff.mp hsent
  rw [decide_eq_true_eq] at hsend
  have henc : encodeControlFrame (.lsa farMessage) =
      .ok (.control .lsa (signedLsa farMessage).encode) := by
    rfl
  refine ⟨q, acts, _, hrun, hsend, henc, ?_⟩
  refine control_frames_fit
    (readsOnly (signedLsa farMessage) ⟨farLsa.origin.bytes, 1, 300, [], [], 1⟩)
    ⟨?_, ?_⟩ _ _ _ events ?_ ?_ q acts hrun _ _ hsend _ henc
  · intro bytes m hm
    simp only [readsOnly, Option.ite_none_right_eq_some, Option.some.injEq] at hm
    rw [hm.1, hm.2]
  · intro m hm
    simp only [readsOnly, Option.ite_none_right_eq_some] at hm
    have hne : [] ≠ (signedLsa farMessage).lsaBytes := by decide +kernel
    exact absurd hm.1 hne
  · rw [← hevents]
    intro e he link m hm
    simp only [List.mem_cons, List.not_mem_nil, or_false] at he
    obtain rfl | rfl | rfl | rfl := he
    · cases hm
    · cases hm
    · cases hm
    · cases hm
      exact ⟨.control .lsa (signedLsa farMessage).encode, by decide +kernel, by rfl⟩
  · rw [← hevents]
    intro e he ads hads
    simp only [List.mem_cons, List.not_mem_nil, or_false] at he
    obtain rfl | rfl | rfl | rfl := he
    · cases hads
    · cases hads
    · cases hads
      decide
    · cases hads

/-- Seventeen topics, each with a partition of the greatest length. -/
def wideAds : List TopicAd :=
  (List.range 17).map fun i =>
    ⟨[UInt8.ofNat i], List.replicate maxTopicPartitionLen 0, .subscribe, 0, 0⟩

theorem adsBytes_wideAds : adsBytes wideAds = 17 * (1 + maxTopicPartitionLen) := by
  simp only [adsBytes, wideAds, List.map_map, Function.comp_def, List.length_singleton,
    List.length_replicate, List.map_const', List.length_range, List.sum_replicate, smul_eq_mul]

theorem validTopicAds_wideAds : validTopicAds wideAds = true := by
  rw [validTopicAds_iff]
  refine ⟨by decide, ?_, ?_⟩
  · intro ad had
    obtain ⟨i, -, rfl⟩ := List.mem_map.mp had
    have hname : 1 ≤ maxTopicNameLen := by decide
    refine ⟨by simp, hname, ?_⟩
    rw [List.length_replicate]
  · refine List.Nodup.of_map Prod.fst ?_
    have htopics : ((wideAds.map fun ad => (ad.topic, ad.partition)).map Prod.fst) =
        (List.range 17).map fun i => [UInt8.ofNat i] := by
      simp only [wideAds, List.map_map, Function.comp_def]
    rw [htopics]
    decide

/-- A message of the node's own whose topic ads alone exceed the limit is refused by the framing. -/
theorem wide_frame_refused {lsa : Lsa} (hvalid : validLsa lsa = true)
    (hwide : maxPayloadLen < adsBytes lsa.topics) :
    ∃ wire, encodeControlFrame (.lsa (unsecuredSign lsa)) = .ok wire ∧
      FrameEncoder.encode wire = .error (.payloadTooLarge wire.payload.length) := by
  refine ⟨_, encodeControlFrame_lsa.mpr ⟨hvalid, rfl⟩, ?_⟩
  have hlsa := adsBytes_le_length_encodeLsa lsa
  have hfield := le_length_bytesField 1 (encodeLsa lsa)
  have hlong : maxPayloadLen < (WireFrame.control .lsa
      (signedLsa (unsecuredSign lsa)).encode).payload.length := by
    simp only [WireFrame.control, signedLsa, unsecuredSign, List.isEmpty_nil, if_true,
      Proto.SignedLsa.encode, List.length_append]
    omega
  simp only [FrameEncoder.encode, if_pos hlong]

/-- A node with one link announces the seventeen topics: the LSA it sends is valid and encoded, and
is too long for a frame. -/
theorem wide_lsa_does_not_fit :
    ∃ q acts link frame wire,
      (newUnsecuredWithSeq (.ofByte 1) 1 0).run
        [(0, linkEvent 0 2), (1, .localTopicAdsChanged wideAds)] = some (q, acts) ∧
      q.bestByPeer.size ≤ maxLsaAdjacencies ∧ .send link frame ∈ acts ∧
      encodeControlFrame frame = .ok wire ∧
      FrameEncoder.encode wire = .error (.payloadTooLarge wire.payload.length) := by
  -- the first event is evaluated; the second is followed through the specification of `handle`
  have hfirst : (((newUnsecuredWithSeq (.ofByte 1) 1 0).handle 0 (linkEvent 0 2)).map fun r =>
      decide ((r.1.mySeq, r.1.localTopicAds, r.1.adjacencies.keys) = (1, [], [0]) ∧
        r.1.lsdb.size < maxLsdbEntries ∧ r.1.spfGeneration < u64Max ∧
        r.1.bestByPeer.size ≤ maxLsaAdjacencies)) = some true := by
    decide +kernel
  obtain ⟨⟨p, acts1⟩, hp, hfacts⟩ := Option.map_eq_some_iff.mp hfirst
  simp only [decide_eq_true_eq, Prod.mk.injEq] at hfacts
  obtain ⟨⟨hseq, hads, hkeys⟩, hsize, hgen, hpeers⟩ := hfacts
  have hown : Own p := (own_new _ _ _).step (handle_spec hp).effect
  have hne : wideAds.insertionSort (· ≤ ·) ≠ p.localTopicAds := by
    rw [hads]
    intro hnil
    have := (List.perm_insertionSort (· ≤ ·) wideAds).length_eq
    rw [hnil] at this
    revert this
    decide
  obtain ⟨q, acts2, hsecond, hO, hsend⟩ := announce_some hown 1 validTopicAds_wideAds hne
    (by rw [hseq]; decide) (.inr hsize) hgen
  have hvalid : validLsa (ControlPlane.localLsa
      { p with localTopicAds := wideAds.insertionSort (· ≤ ·) } (p.mySeq + 1)) = true := by
    have hcount : (p.bestByPeer.toList.map fun e => (⟨e.1, e.2⟩ : Adjacency)).length ≤
        maxLsaAdjacencies := by
      rw [List.length_map, Std.ExtTreeMap.length_toList]
      exact hpeers
    have hsorted : validTopicAds (wideAds.insertionSort (· ≤ ·)) = true :=
      (validTopicAds_perm (List.perm_insertionSort _ _)).mpr validTopicAds_wideAds
    have httl : (decide (1 ≤ defaultLsaTtlSec) && decide (defaultLsaTtlSec ≤ maxLsaTtlSec)) =
        true := by
      decide
    simp only [validLsa, localLsa, hsorted, Bool.and_true]
    exact Bool.and_eq_true_iff.mpr ⟨httl, decide_eq_true hcount⟩
  have hwide : maxPayloadLen < adsBytes (wideAds.insertionSort (· ≤ ·)) := by
    rw [adsBytes_perm (List.perm_insertionSort _ _), adsBytes_wideAds]
    decide
  obtain ⟨wire, henc, herr⟩ := wide_frame_refused hvalid hwide
  have hlink : (0 : LinkId) ∈ p.adjacencies := by
    rw [← Std.ExtTreeMap.mem_keys]
    simp only [hkeys, List.mem_singleton]
  refine ⟨q, acts1 ++ (acts2 ++ []), 0, _, wire,
    emitAll_cons_some hp (emitAll_cons_some hsecond rfl), ?_, ?_, henc, herr⟩
  · rw [bestByPeer, hO.same.adjacencies]
    exact hpeers
  · exact List.mem_append_right _ (List.mem_append_left _ (hsend 0 hlink))

end Runtime
end MeshBus
