import MeshBus.Lib.Emit
import MeshBus.Lib.Window
import MeshBus.PubSub.Envelope
import MeshBus.PubSub.Node

/-!
# PubSub.Dedup

Duplicate suppression against its specification by sets. `Seen` is the set of sequence numbers
accepted for each origin and topic; `Seen.step` adds what a step accepts. The windows of a node
represent these sets along every run (`Tracks.step`), so an inbound envelope is delivered exactly
when its number is fresh for the set, and no message reaches a subscription twice.
-/

namespace MeshBus
namespace PubSub

/-! ## The receive window -/

namespace ReceiveWindow

/-- The window in terms of numbers and bits. -/
def window (self : ReceiveWindow) : Window 64 := ⟨self.highest.toNat, self.bitmap.toBitVec⟩

theorem window_first (seq : UInt64) : (first seq).window = .first 64 seq.toNat := rfl

theorem toBitVec_shiftLeft_of_lt (x : UInt64) {shift : UInt64} (h : shift.toNat < 64) :
    (x <<< shift).toBitVec = x.toBitVec <<< shift.toNat := by
  have hmod : (shift.toBitVec % 64).toNat = shift.toNat := by
    rw [BitVec.toNat_umod]
    exact Nat.mod_eq_of_lt h
  rw [UInt64.toBitVec_shiftLeft, BitVec.shiftLeft_eq', hmod]

theorem bit_ne_zero_iff (bitmap : UInt64) {age : UInt64} (h : age.toNat < 64) :
    bitmap &&& 1 <<< age ≠ 0 ↔ bitmap.toBitVec.getLsbD age.toNat = true := by
  have hne : BitVec.twoPow 64 age.toNat ≠ 0#64 := by
    intro hzero
    have := congrArg (fun bits => bits.getLsbD age.toNat) hzero
    simp [h] at this
  have hbit : ((1 : UInt64) <<< age).toBitVec = BitVec.twoPow 64 age.toNat := by
    rw [toBitVec_shiftLeft_of_lt 1 h, BitVec.twoPow_eq]
    rfl
  rw [Ne, ← UInt64.toBitVec_inj, UInt64.toBitVec_and, hbit, BitVec.and_twoPow]
  by_cases hset : bitmap.toBitVec.getLsbD age.toNat = true
  · rw [if_pos hset]
    exact iff_of_true hne hset
  · rw [if_neg hset]
    exact iff_of_false (not_not.mpr rfl) hset

/-- The window of the source is the window of numbers and bits. -/
theorem window_accept (self : ReceiveWindow) (seq : UInt64) :
    (self.accept seq).1 = (self.window.accept seq.toNat).1 ∧
      (self.accept seq).2.window = (self.window.accept seq.toNat).2 := by
  unfold accept Window.accept
  by_cases hlt : self.highest < seq
  · have hshift : (seq - self.highest).toNat = seq.toNat - self.highest.toNat :=
      UInt64.toNat_sub_of_le _ _ (UInt64.le_of_lt hlt)
    rw [if_pos hlt, if_pos (show self.window.highest < seq.toNat from hlt)]
    refine ⟨rfl, ?_⟩
    by_cases hfar : 64 ≤ seq - self.highest
    · have hfar' : 64 ≤ seq.toNat - self.window.highest := hshift ▸ UInt64.le_iff_toNat_le.mp hfar
      simp only [if_pos hfar, if_pos hfar']
      rfl
    · have hnear : (seq - self.highest).toNat < 64 :=
        Nat.lt_of_not_le fun h => hfar (UInt64.le_iff_toNat_le.mpr h)
      have hnear' : ¬ 64 ≤ seq.toNat - self.window.highest := by
        rw [hshift] at hnear
        exact Nat.not_le.mpr hnear
      simp only [if_neg hfar, if_neg hnear']
      simp only [window, UInt64.toBitVec_or, toBitVec_shiftLeft_of_lt _ hnear, hshift]
      rfl
  · have hle : seq ≤ self.highest := UInt64.not_lt.mp hlt
    have hage : (self.highest - seq).toNat = self.window.highest - seq.toNat :=
      UInt64.toNat_sub_of_le _ _ hle
    rw [if_neg hlt, if_neg (show ¬ self.window.highest < seq.toNat from hlt)]
    by_cases hold : 64 ≤ self.highest - seq
    · have hold' : 64 ≤ self.window.highest - seq.toNat := hage ▸ UInt64.le_iff_toNat_le.mp hold
      simp only [if_pos hold, if_pos hold', and_self]
    · have hnear : (self.highest - seq).toNat < 64 :=
        Nat.lt_of_not_le fun h => hold (UInt64.le_iff_toNat_le.mpr h)
      have hold' : ¬ 64 ≤ self.window.highest - seq.toNat := by
        rw [← hage]
        exact Nat.not_le.mpr hnear
      have hbit : self.bitmap &&& 1 <<< (self.highest - seq) ≠ 0 ↔
          self.window.bitmap.getLsbD (self.window.highest - seq.toNat) = true := by
        rw [← hage]
        exact bit_ne_zero_iff self.bitmap hnear
      simp only [if_neg hold, if_neg hold']
      by_cases hset : self.bitmap &&& 1 <<< (self.highest - seq) ≠ 0
      · rw [if_pos hset, if_pos (hbit.mp hset)]
        exact ⟨rfl, rfl⟩
      · rw [if_neg hset, if_neg fun h => hset (hbit.mpr h)]
        refine ⟨rfl, ?_⟩
        simp only [window, UInt64.toBitVec_or, toBitVec_shiftLeft_of_lt _ hnear, BitVec.twoPow_eq]
        rw [hage]
        rfl

theorem window_injective : Function.Injective window := by
  rintro ⟨highest, bitmap⟩ ⟨highest', bitmap'⟩ h
  obtain ⟨hhigh, hbits⟩ := Window.mk.inj h
  exact congrArg₂ mk (UInt64.toNat_inj.mp hhigh) (UInt64.toBitVec_inj.mp hbits)

theorem accept_refused {self : ReceiveWindow} {seq : UInt64} (h : (self.accept seq).1 = false) :
    (self.accept seq).2 = self := by
  obtain ⟨hfst, hsnd⟩ := window_accept self seq
  apply window_injective
  rw [hsnd]
  exact Window.accept_snd_of_false (hfst ▸ h)

end ReceiveWindow

/-! ## The specification -/

/-- The sequence numbers accepted so far, for every origin and topic. -/
abbrev Seen := NodeId → TopicKey → Finset Nat

namespace Seen

def add (seen : Seen) (origin : NodeId) (topic : TopicKey) (seq : UInt64) : Seen :=
  fun o t => if o = origin ∧ t = topic then insert seq.toNat (seen o t) else seen o t

/-- What a local publication adds: the numbers it reports. -/
def addPublished (me : NodeId) (seen : Seen) : PubSubAction → Seen
  | .published topic seq => seen.add me topic seq
  | _ => seen

/-- What an inbound payload adds: its number, if it is fresh. -/
def addInbound (prost : Bytes → Option WireEnvelope) (node : PubSub) (seen : Seen)
    (source : NodeId) (payload : Bytes) : Seen :=
  match EnvelopeCodec.decode prost payload with
  | .error _ => seen
  | .ok envelope =>
    if envelope.origin = source ∧ (node.policies.get envelope.topic.name).isSome ∧
        Fresh 64 (seen source envelope.topic) envelope.seq.toNat then
      seen.add source envelope.topic envelope.seq
    else seen

/-- The step of the sets beside a step of the node. -/
def step (prost : Bytes → Option WireEnvelope) (node : PubSub) (seen : Seen) :
    PubSubEvent → List PubSubAction → Seen
  | .inbound source payload, _ => seen.addInbound prost node source payload
  | _, acts => acts.foldl (addPublished node.me) seen

end Seen

/-- A step of the node and of the sets. -/
def watch (prost : Bytes → Option WireEnvelope) (debug : Bool) (s : PubSub × Seen)
    (e : MonoTime × PubSubEvent) : Option ((PubSub × Seen) × List PubSubAction) :=
  (s.1.handle prost debug e.1 e.2).map fun r => ((r.1, s.2.step prost s.1 e.2 r.2), r.2)

/-! ## The windows represent the sets -/

/-- The windows of a node hold exactly the sets. -/
def Tracks (received : OrdMap (NodeId ×ₗ TopicKey) ReceiveWindow) (seen : Seen) : Prop :=
  ∀ origin topic, match received[toLex (origin, topic)]? with
    | none => seen origin topic = ∅
    | some window => window.window.Holds (seen origin topic)

theorem Tracks.congr_add {received : OrdMap (NodeId ×ₗ TopicKey) ReceiveWindow} {seen : Seen}
    (h : Tracks received seen) {origin : NodeId} {topic : TopicKey} {seq : UInt64}
    {window : ReceiveWindow}
    (hw : window.window.Holds (insert seq.toNat (seen origin topic))) :
    Tracks (received.insert (toLex (origin, topic)) window) (seen.add origin topic seq) := by
  intro o t
  rw [OrdMap.get_insert]
  by_cases hk : o = origin ∧ t = topic
  · obtain ⟨rfl, rfl⟩ := hk
    simp only [if_true, Seen.add, and_self]
    exact hw
  · have hkey : toLex (origin, topic) ≠ toLex (o, t) := by
      intro heq
      cases toLex.injective heq
      exact hk ⟨rfl, rfl⟩
    rw [if_neg hkey, Seen.add, if_neg hk]
    exact h o t

/-- The step on a window: it accepts fresh numbers, and every number it was given joins the set. -/
theorem Tracks.acceptSeq {received : OrdMap (NodeId ×ₗ TopicKey) ReceiveWindow} {seen : Seen}
    (h : Tracks received seen) (origin : NodeId) (topic : TopicKey) (seq : UInt64) :
    ((acceptSeq received origin topic seq).1 = true ↔ Fresh 64 (seen origin topic) seq.toNat) ∧
      Tracks (acceptSeq received origin topic seq).2 (seen.add origin topic seq) := by
  have hkey := h origin topic
  unfold PubSub.acceptSeq
  cases hw : received[toLex (origin, topic)]? with
  | none =>
    rw [hw] at hkey
    refine ⟨iff_of_true rfl (.inl hkey), h.congr_add ?_⟩
    simp only [hkey, ReceiveWindow.window_first]
    exact Window.holds_first (by decide) _
  | some window =>
    rw [hw] at hkey
    obtain ⟨hfst, hsnd⟩ := window.window_accept seq
    refine ⟨?_, h.congr_add ?_⟩
    · rw [hfst]
      exact hkey.accept_fst _
    · rw [hsnd]
      exact hkey.accept _

/-- A refused number leaves the windows as they were. -/
theorem acceptSeq_refused {received : OrdMap (NodeId ×ₗ TopicKey) ReceiveWindow} {origin : NodeId}
    {topic : TopicKey} {seq : UInt64} (h : (acceptSeq received origin topic seq).1 = false) :
    (acceptSeq received origin topic seq).2 = received := by
  unfold PubSub.acceptSeq at h ⊢
  cases hw : received[toLex (origin, topic)]? with
  | none =>
    rw [hw] at h
    cases h
  | some window =>
    rw [hw] at h
    simp only at h ⊢
    rw [ReceiveWindow.accept_refused h, OrdMap.insert_eq_self hw]

variable {prost : Bytes → Option WireEnvelope} {debug : Bool}

/-- The subscriptions that match, each once. -/
theorem localDeliveries_spec (node : PubSub) (envelope : Envelope) :
    (node.localDeliveries envelope).Nodup ∧ ∀ action, action ∈ node.localDeliveries envelope ↔
      ∃ sub selector, node.localSubscriptions[sub]? = some selector ∧
        selector.matchesTopic envelope.topic = true ∧
        action = .deliverToApp sub ⟨envelope, false⟩ := by
  unfold localDeliveries
  constructor
  · have hfilter := (OrdMap.nodup_toList node.localSubscriptions).filter
      fun e => e.2.matchesTopic envelope.topic
    refine hfilter.map_on ?_
    rintro ⟨sub, selector⟩ hmem ⟨sub', selector'⟩ hmem' heq
    have hget := OrdMap.mem_toList.mp (List.mem_of_mem_filter hmem)
    have hget' := OrdMap.mem_toList.mp (List.mem_of_mem_filter hmem')
    cases heq
    rw [hget] at hget'
    cases hget'
    rfl
  · intro action
    simp only [List.mem_map, List.mem_filter, Prod.exists, OrdMap.mem_toList]
    constructor
    · rintro ⟨sub, selector, ⟨hget, hmatch⟩, rfl⟩
      exact ⟨sub, selector, hget, hmatch, rfl⟩
    · rintro ⟨sub, selector, hget, hmatch, rfl⟩
      exact ⟨sub, selector, ⟨hget, hmatch⟩, rfl⟩

/-- What a step of node and sets does. -/
inductive Watched (node : PubSub) (seen : Seen) : PubSub → Seen → List PubSubAction → Prop
  /-- Nothing is accepted and nothing delivered. -/
  | idle {q acts} (hreceived : q.received = node.received) (hpolicies : q.policies = node.policies)
      (hquiet : ∀ sub message, .deliverToApp sub message ∉ acts) : Watched node seen q seen acts
  /-- A local publication is counted. -/
  | published {q acts topic seq}
      (hreceived : q.received = (acceptSeq node.received node.me topic seq).2)
      (hpolicies : q.policies = node.policies)
      (hquiet : ∀ sub message, .deliverToApp sub message ∉ acts) :
      Watched node seen q (seen.add node.me topic seq) acts
  /-- An inbound envelope is accepted. -/
  | accepted {q envelope}
      (hreceived : q.received =
        (acceptSeq node.received envelope.origin envelope.topic envelope.seq).2)
      (hpolicies : q.policies = node.policies)
      (hfresh : Fresh 64 (seen envelope.origin envelope.topic) envelope.seq.toNat) :
      Watched node seen q (seen.add envelope.origin envelope.topic envelope.seq)
        (node.localDeliveries envelope)

theorem mem_sends {node : PubSub} {policy : TopicPolicy} {topic : TopicKey} {encoded : Bytes}
    {sent : List PubSubAction} (h : node.sends policy topic encoded = some sent)
    {action : PubSubAction} (hmem : action ∈ sent) :
    ∃ destinations priority flowId conflateKey conflatable, action =
      .sendMulticast destinations priority flowId conflateKey conflatable encoded := by
  simp only [sends, bind, Option.bind_eq_some_iff] at h
  obtain ⟨chunked, -, h⟩ := h
  cases h
  obtain ⟨chunk, -, rfl⟩ := List.mem_map.mp hmem
  exact ⟨_, _, _, _, _, rfl⟩

theorem foldl_addPublished_sends {me : NodeId} {acts : List PubSubAction} {seen : Seen}
    (h : ∀ topic seq, .published topic seq ∉ acts) :
    acts.foldl (Seen.addPublished me) seen = seen := by
  induction acts generalizing seen with
  | nil => rfl
  | cons action acts ih =>
    have hhead : Seen.addPublished me seen action = seen := by
      cases action with
      | published topic seq => exact absurd List.mem_cons_self (h topic seq)
      | _ => rfl
    rw [List.foldl_cons, hhead]
    exact ih fun topic seq hmem => h topic seq (List.mem_cons_of_mem _ hmem)

/-- An inbound payload, in terms of the sets. -/
theorem inbound_watched {node : PubSub} {seen : Seen} (h : Tracks node.received seen)
    (source : NodeId) (payload : Bytes) :
    Watched node seen (node.receive prost source payload).1
      (seen.addInbound prost node source payload) (node.receive prost source payload).2 := by
  by_cases hadmits : ∃ envelope, Admits prost node source payload envelope
  · obtain ⟨envelope, hadmits⟩ := hadmits
    have hacc := (h.acceptSeq source envelope.topic envelope.seq).1
    rw [receive_admitted hadmits]
    obtain ⟨hdec, rfl, hpolicy⟩ := hadmits
    by_cases hfresh : Fresh 64 (seen envelope.origin envelope.topic) envelope.seq.toNat
    · simp only [Seen.addInbound, hdec, hpolicy, hfresh, and_self, if_true, hacc.mpr hfresh]
      exact .accepted rfl rfl hfresh
    · have hrefused := Bool.eq_false_iff.mpr fun hacc' => hfresh (hacc.mp hacc')
      simp only [Seen.addInbound, hdec, hfresh, and_false, if_false, hrefused,
        acceptSeq_refused hrefused]
      exact .idle rfl rfl (by simp)
  · obtain ⟨reason, hreceive⟩ := receive_refused (not_exists.mp hadmits)
    have hsame : seen.addInbound prost node source payload = seen := by
      unfold Seen.addInbound
      split
      · rfl
      · rename_i envelope hdec
        refine if_neg ?_
        rintro ⟨horigin, hpolicy, -⟩
        exact hadmits ⟨envelope, hdec, horigin, hpolicy⟩
    rw [hreceive, hsame]
    exact .idle rfl rfl (by simp)

/-- A change of the subscriptions, in terms of the sets. -/
theorem subscription_watched {node q : PubSub} {seen : Seen} (previous : OrdSet TopicSelector)
    (hreceived : q.received = node.received) (hpolicies : q.policies = node.policies) :
    Watched node seen q
      ((q.subscriptionChange previous).foldl (Seen.addPublished node.me) seen)
      (q.subscriptionChange previous) := by
  simp only [subscriptionChange]
  split
  · exact .idle hreceived hpolicies (by simp)
  · exact .idle hreceived hpolicies (by simp)

/-- A publication, in terms of the sets. -/
theorem publish_watched {node q : PubSub} {seen : Seen} {now : MonoTime} {topic : TopicKey}
    {payload : Bytes} {acts : List PubSubAction}
    (h : node.publish debug now topic payload = some (q, acts)) :
    Watched node seen q (acts.foldl (Seen.addPublished node.me) seen) acts := by
  rcases publish_cases h with hpub | ⟨reason, rfl, hq⟩
  · obtain ⟨policy, encoded, sent, -, -, hsent, rfl⟩ := hpub.emitted
    have hnone : ∀ topic seq, .published topic seq ∉ sent := by
      intro topic seq hmem
      obtain ⟨_, _, _, _, _, heq⟩ := mem_sends hsent hmem
      cases heq
    rw [List.foldl_append, foldl_addPublished_sends hnone]
    refine .published ?_ ?_ ?_
    · rw [hpub.state]
    · rw [hpub.state]
    · intro sub message hmem
      rcases List.mem_append.mp hmem with hmem | hmem
      · obtain ⟨_, _, _, _, _, heq⟩ := mem_sends hsent hmem
        cases heq
      · cases List.mem_singleton.mp hmem
  · have hreceived : q.received = node.received ∧ q.policies = node.policies := by
      rcases hq with rfl | rfl
      · exact ⟨rfl, rfl⟩
      · exact ⟨rfl, rfl⟩
    exact .idle hreceived.1 hreceived.2 (by simp)

theorem watch_spec {node q : PubSub} {seen seen' : Seen} {e : MonoTime × PubSubEvent}
    {acts : List PubSubAction} (h : Tracks node.received seen)
    (hstep : watch prost debug (node, seen) e = some ((q, seen'), acts)) :
    Watched node seen q seen' acts := by
  obtain ⟨now, event⟩ := e
  obtain ⟨⟨q1, acts1⟩, hhandle, heq⟩ := Option.map_eq_some_iff.mp hstep
  cases heq
  cases event with
  | localPublish topic payload => exact publish_watched hhandle
  | localSubscribe subId selector =>
    cases hhandle
    exact subscription_watched _ rfl rfl
  | localUnsubscribe subId =>
    cases hhandle
    exact subscription_watched _ rfl rfl
  | inbound source payload =>
    have hreceive : node.receive prost source payload = (q1, acts1) := Option.some.inj hhandle
    have hw : Watched node seen (node.receive prost source payload).1
        (seen.addInbound prost node source payload) (node.receive prost source payload).2 :=
      inbound_watched h source payload
    rw [hreceive] at hw
    exact hw
  | discoveryUpdated discovery =>
    cases hhandle
    exact .idle rfl rfl (by simp)

theorem Tracks.watched {node q : PubSub} {seen seen' : Seen} {acts : List PubSubAction}
    (h : Tracks node.received seen) (hstep : Watched node seen q seen' acts) :
    Tracks q.received seen' := by
  cases hstep with
  | idle hreceived =>
    rw [hreceived]
    exact h
  | published hreceived =>
    rw [hreceived]
    exact (h.acceptSeq _ _ _).2
  | accepted hreceived =>
    rw [hreceived]
    exact (h.acceptSeq _ _ _).2

theorem Seen.subset_add (seen : Seen) (origin : NodeId) (topic : TopicKey) (seq : UInt64)
    (o : NodeId) (t : TopicKey) : seen o t ⊆ seen.add origin topic seq o t := by
  unfold Seen.add
  split
  · exact Finset.subset_insert _ _
  · exact Finset.Subset.refl _

theorem Watched.subset {node q : PubSub} {seen seen' : Seen} {acts : List PubSubAction}
    (h : Watched node seen q seen' acts) (o : NodeId) (t : TopicKey) : seen o t ⊆ seen' o t := by
  cases h with
  | idle => exact Finset.Subset.refl _
  | published => exact seen.subset_add _ _ _ o t
  | accepted => exact seen.subset_add _ _ _ o t

/-! ## Deliveries -/

/-- The subscription, origin, topic and sequence number of a delivery. -/
def deliveryKey : PubSubAction → Option (SubId × NodeId × TopicKey × UInt64)
  | .deliverToApp sub message =>
    some (sub, message.envelope.origin, message.envelope.topic, message.envelope.seq)
  | _ => none

theorem deliveryKey_eq_some {action : PubSubAction} {key : SubId × NodeId × TopicKey × UInt64}
    (h : deliveryKey action = some key) : ∃ message, action = .deliverToApp key.1 message ∧
      key.2 = (message.envelope.origin, message.envelope.topic, message.envelope.seq) := by
  cases action with
  | deliverToApp sub message =>
    cases h
    exact ⟨message, rfl, rfl⟩
  | _ => cases h

/-- The deliveries of a step are of one number that was fresh before it and is seen after it. -/
theorem Watched.deliveries {node q : PubSub} {seen seen' : Seen} {acts : List PubSubAction}
    (h : Watched node seen q seen' acts) :
    (acts.filterMap deliveryKey).Nodup ∧ ∀ sub origin topic seq,
      (sub, origin, topic, seq) ∈ acts.filterMap deliveryKey →
        seq.toNat ∉ seen origin topic ∧ seq.toNat ∈ seen' origin topic := by
  have hquiet : (∀ sub message, .deliverToApp sub message ∉ acts) →
      acts.filterMap deliveryKey = [] := by
    intro hquiet
    refine List.filterMap_eq_nil_iff.mpr fun action hmem => ?_
    cases hkey : deliveryKey action with
    | none => rfl
    | some key =>
      obtain ⟨message, rfl, -⟩ := deliveryKey_eq_some hkey
      exact absurd hmem (hquiet _ _)
  cases h with
  | idle _ _ hq => simp only [hquiet hq, List.nodup_nil, List.not_mem_nil, false_implies,
      implies_true, and_self]
  | published _ _ hq => simp only [hquiet hq, List.nodup_nil, List.not_mem_nil, false_implies,
      implies_true, and_self]
  | @accepted envelope hreceived hpolicies hfresh =>
    have hmem := (localDeliveries_spec node envelope).2
    constructor
    · have hkeys : (node.localDeliveries envelope).filterMap deliveryKey =
          (node.localSubscriptions.toList.filter fun e => e.2.matchesTopic envelope.topic).map
            fun e => (e.1, envelope.origin, envelope.topic, envelope.seq) := by
        rw [localDeliveries, List.filterMap_map]
        exact congrFun (List.filterMap_eq_map ..) _
      rw [hkeys]
      refine List.Nodup.of_map Prod.fst ?_
      rw [List.map_map]
      exact (List.filter_sublist.map Prod.fst).nodup (OrdMap.nodup_fst_toList _)
    · intro sub origin topic seq hkey
      obtain ⟨action, haction, hkey⟩ := List.mem_filterMap.mp hkey
      obtain ⟨sub', selector, -, -, rfl⟩ := (hmem action).mp haction
      cases hkey
      refine ⟨hfresh.not_mem, ?_⟩
      simp only [Seen.add, and_self, if_true]
      exact Finset.mem_insert_self _ _

/-- Along a run no delivery is of a number seen before the run, and none is repeated. -/
theorem run_deliveries : ∀ {events : List (MonoTime × PubSubEvent)} {s s' : PubSub × Seen}
    {acts : List PubSubAction}, Tracks s.1.received s.2 →
    emitAll (watch prost debug) s events = some (s', acts) →
    (acts.filterMap deliveryKey).Nodup ∧ ∀ sub origin topic seq,
      (sub, origin, topic, seq) ∈ acts.filterMap deliveryKey → seq.toNat ∉ s.2 origin topic := by
  intro events
  induction events with
  | nil =>
    intro s s' acts _ hrun
    cases hrun
    simp
  | cons e events ih =>
    intro s s' acts htracks hrun
    obtain ⟨s1, out, rest, hstep, hrest, rfl⟩ := emitAll_cons_inv hrun
    have hw : Watched s.1 s.2 s1.1 s1.2 out := watch_spec htracks hstep
    obtain ⟨hnodup, hout⟩ := hw.deliveries
    obtain ⟨hnodup', hout'⟩ := ih (htracks.watched hw) hrest
    rw [List.filterMap_append]
    constructor
    · refine hnodup.append hnodup' ?_
      rintro ⟨sub, origin, topic, seq⟩ hmem hmem'
      exact hout' _ _ _ _ hmem' (hout _ _ _ _ hmem).2
    · intro sub origin topic seq hmem
      rcases List.mem_append.mp hmem with hmem | hmem
      · exact (hout _ _ _ _ hmem).1
      · exact fun hin => hout' _ _ _ _ hmem (hw.subset _ _ hin)

theorem tracks_new (me : NodeId) (policies : TopicPolicies) :
    Tracks (new me policies).received fun _ _ => ∅ := by
  intro origin topic
  simp [new]

theorem Tracks.run {events : List (MonoTime × PubSubEvent)} {s s' : PubSub × Seen}
    {acts : List PubSubAction} (h : Tracks s.1.received s.2)
    (hrun : emitAll (watch prost debug) s events = some (s', acts)) :
    Tracks s'.1.received s'.2 := by
  refine emitAll_inv (P := fun s => Tracks s.1.received s.2) ?_ h hrun
  intro s e s' out htracks hstep
  exact htracks.watched (watch_spec htracks hstep)

/-- In every run, an inbound envelope of its source on a topic with a policy goes to each matching
subscription once if its number is fresh for the set of accepted numbers, and is dropped otherwise;
and no message reaches a subscription twice. -/
theorem dedup_exact (prost : Bytes → Option WireEnvelope) (debug : Bool) (me : NodeId)
    (policies : TopicPolicies) (events : List (MonoTime × PubSubEvent)) (q : PubSub) (seen : Seen)
    (acts : List PubSubAction)
    (hrun : emitAll (watch prost debug) (new me policies, fun _ _ => ∅) events =
      some ((q, seen), acts)) :
    (acts.filterMap deliveryKey).Nodup ∧
      ∀ now source payload envelope, EnvelopeCodec.decode prost payload = .ok envelope →
        envelope.origin = source → (q.policies.get envelope.topic.name).isSome →
        ∃ q' seen' acts', watch prost debug (q, seen) (now, .inbound source payload) =
            some ((q', seen'), acts') ∧
          if Fresh 64 (seen source envelope.topic) envelope.seq.toNat then
            seen' = seen.add source envelope.topic envelope.seq ∧ acts'.Nodup ∧
              ∀ action, action ∈ acts' ↔ ∃ sub selector,
                q.localSubscriptions[sub]? = some selector ∧
                selector.matchesTopic envelope.topic = true ∧
                action = .deliverToApp sub ⟨envelope, false⟩
          else seen' = seen ∧
            acts' = [.dropped (.duplicateOrTooOld source envelope.topic envelope.seq)] := by
  refine ⟨(run_deliveries (tracks_new me policies) hrun).1, ?_⟩
  intro now source payload envelope hdec horigin hpolicy
  have htracks : Tracks q.received seen := Tracks.run (tracks_new me policies) hrun
  have hacc := (htracks.acceptSeq source envelope.topic envelope.seq).1
  refine ⟨_, _, _, rfl, ?_⟩
  simp only [Seen.step]
  rw [receive_admitted ⟨hdec, horigin, hpolicy⟩]
  split
  · rename_i hfresh
    simp only [Seen.addInbound, hdec, horigin, hpolicy, hfresh, and_self, if_true,
      hacc.mpr hfresh, true_and]
    exact localDeliveries_spec q envelope
  · rename_i hfresh
    have hrefused := Bool.eq_false_iff.mpr fun hacc' => hfresh (hacc.mp hacc')
    simp only [Seen.addInbound, hdec, hfresh, and_false, if_false, hrefused, Bool.false_eq_true,
      and_self]

def sampleTopic : TopicKey := .ofByte 116

def samplePolicies : TopicPolicies :=
  TopicPolicies.empty.insert [116] ⟨.p1, .latest⟩ rfl

/-- Number 5 of node 2 on the sample topic. -/
def replayed : Bytes :=
  envelopeMagic ++ (EnvelopeCodec.wire ⟨.ofByte 2, sampleTopic, 5, 0, [1]⟩).encode

/-- A replayed envelope is delivered once. -/
theorem dedup_exact_replay :
    ∃ q seen acts, emitAll (watch envelopeLayout.read true)
        (new (.ofByte 1) samplePolicies, fun _ _ => ∅)
        [(0, .localSubscribe 7 (.exact sampleTopic)), (1, .inbound (.ofByte 2) replayed),
          (2, .inbound (.ofByte 2) replayed)] = some ((q, seen), acts) ∧
      acts.filterMap deliveryKey = [(7, .ofByte 2, sampleTopic, 5)] ∧
      (acts.filterMap deliveryKey).Nodup := by
  have hkeys : (emitAll (watch envelopeLayout.read true)
        (new (.ofByte 1) samplePolicies, fun _ _ => ∅)
        [(0, .localSubscribe 7 (.exact sampleTopic)), (1, .inbound (.ofByte 2) replayed),
          (2, .inbound (.ofByte 2) replayed)]).map (fun r => r.2.filterMap deliveryKey) =
      some [(7, .ofByte 2, sampleTopic, 5)] := by
    decide +kernel
  obtain ⟨⟨⟨q, seen⟩, acts⟩, hrun, hacts⟩ := Option.map_eq_some_iff.mp hkeys
  exact ⟨q, seen, acts, hrun, hacts, (dedup_exact _ _ _ _ _ q seen acts hrun).1⟩

end PubSub
end MeshBus
