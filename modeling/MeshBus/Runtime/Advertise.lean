import MeshBus.Control.Own
import MeshBus.Runtime.Loop

/-!
# Runtime.Advertise

The topics a node advertises against the subscriptions of its application. A selector is advertised
under its name and its partition, with the empty partition for all partitions. Two selectors may
meet there, and the control plane ignores a list of ads that repeats a pair or is too long: the
advertisement then stays what it was (`rejected_subscription_is_not_advertised`). While the
selectors have pairs of their own and fit into an LSA, the advertisement follows every change
(`advertised_eq_subscribed`).
-/

namespace MeshBus
namespace Runtime

open Control ControlPlane PubSub

/-- A request of the application. -/
inductive SubscriptionChange where
  | subscribe (subId : SubId) (selector : TopicSelector)
  | unsubscribe (subId : SubId)

namespace SubscriptionChange

def event : SubscriptionChange → PubSubEvent
  | subscribe subId selector => .localSubscribe subId selector
  | unsubscribe subId => .localUnsubscribe subId

/-- The subscriptions after a request. -/
def apply (subs : OrdMap SubId TopicSelector) : SubscriptionChange → OrdMap SubId TopicSelector
  | subscribe subId selector => subs.insert subId selector
  | unsubscribe subId => subs.erase subId

end SubscriptionChange

/-- The name and the partition a selector is advertised under. -/
def pair (selector : TopicSelector) : Bytes × Bytes :=
  (selector.name, selector.partition.getD [])

/-- The pairs of the current selectors. -/
def subscribed (subs : OrdMap SubId TopicSelector) : Finset (Bytes × Bytes) :=
  (subs.values.map pair).toFinset

/-- The pairs in the node's own active LSA. -/
def advertised (plane : ControlPlane) : Finset (Bytes × Bytes) :=
  match plane.stored plane.me with
  | none => ∅
  | some message => (message.lsa.topics.map fun ad => (ad.topic, ad.partition)).toFinset

/-- The selectors have pairs of their own and fit into an LSA. -/
def Advertisable (subs : OrdMap SubId TopicSelector) : Prop :=
  ((OrdSet.ofList subs.values).toList.map pair).Nodup ∧
    (OrdSet.ofList subs.values).toList.length ≤ maxLsaTopicAds

instance (subs : OrdMap SubId TopicSelector) : Decidable (Advertisable subs) :=
  inferInstanceAs (Decidable (_ ∧ _))

/-- The ads of the current selectors. -/
def selectorAds (subs : OrdMap SubId TopicSelector) : List TopicAd :=
  (OrdSet.ofList subs.values).toList.map selectorAd

theorem map_pair_selectorAds (subs : OrdMap SubId TopicSelector) :
    (selectorAds subs).map (fun ad => (ad.topic, ad.partition)) =
      (OrdSet.ofList subs.values).toList.map pair := by
  rw [selectorAds, List.map_map]
  rfl

theorem mem_subscribed {subs : OrdMap SubId TopicSelector} {p : Bytes × Bytes} :
    p ∈ subscribed subs ↔ p ∈ (selectorAds subs).map fun ad => (ad.topic, ad.partition) := by
  rw [map_pair_selectorAds, subscribed, List.mem_toFinset, List.mem_map, List.mem_map]
  simp only [Std.ExtTreeSet.mem_toList, OrdSet.mem_ofList]

theorem Advertisable.valid {subs : OrdMap SubId TopicSelector} (h : Advertisable subs) :
    validTopicAds ((selectorAds subs).insertionSort (· ≤ ·)) = true := by
  rw [validTopicAds_perm (List.perm_insertionSort _ _), validTopicAds_iff]
  refine ⟨?_, ?_, ?_⟩
  · rw [selectorAds, List.length_map]
    exact h.2
  · intro ad had
    obtain ⟨selector, -, rfl⟩ := List.mem_map.mp had
    exact validateTopic_iff.mp selector.valid
  · rw [map_pair_selectorAds]
    exact h.1

/-! ## Runs -/

/-- The node announces the current selectors. -/
structure Announces (rt : RuntimeState) : Prop where
  own : Own rt.plane
  active : rt.plane.me ∈ rt.plane.lsdb → rt.plane.stored rt.plane.me ≠ none
  ads : rt.plane.localTopicAds =
    (selectorAds rt.pubsub.localSubscriptions).insertionSort (· ≤ ·)

theorem Announces.advertised {rt : RuntimeState} (h : Announces rt) :
    advertised rt.plane = subscribed rt.pubsub.localSubscriptions := by
  have hperm := List.perm_insertionSort (· ≤ ·) (selectorAds rt.pubsub.localSubscriptions)
  ext p
  rw [mem_subscribed, ← (hperm.map _).mem_iff, ← h.ads]
  unfold Runtime.advertised
  split
  · rename_i hnone
    -- no entry of its own: nothing was ever announced
    have hblank := (h.own.blank fun hmem => h.active hmem hnone).2
    simp [hblank]
  · rename_i message hmessage
    rw [h.own.message message hmessage, List.mem_toFinset]
    rfl

/-- New ads that pass the check are announced. -/
theorem Announces.announce {rt rt' : RuntimeState} {now : MonoTime} {acts : List ControlAction}
    (h : Announces rt) (hfit : Advertisable rt'.pubsub.localSubscriptions)
    (hstep : rt.plane.handle now (.localTopicAdsChanged
      (selectorAds rt'.pubsub.localSubscriptions)) = some (rt'.plane, acts)) : Announces rt' := by
  have hspec := handle_spec hstep
  have hown := h.own.step hspec.effect
  generalize hads : selectorAds rt'.pubsub.localSubscriptions = ads at hspec
  generalize hplane : rt'.plane = q at hspec
  have hvalid := hfit.valid
  rw [hads] at hvalid
  cases hspec with
  | topicAds _ valid changed ho =>
    refine ⟨hown, ?_, ?_⟩
    · rw [hplane, ho.stored_me h.own.signer]
      simp
    · rw [hplane, hads]
      exact ho.same.localTopicAds
  | keptTopicAds _ kept =>
    rcases kept with hinvalid | hsame
    · rw [hvalid] at hinvalid
      cases hinvalid
    · refine ⟨hplane ▸ h.own, by rw [hplane]; exact h.active, ?_⟩
      rw [hplane, hads, hsame]

theorem subscriptionChange_changed (node : PubSub) (previous : OrdSet TopicSelector) :
    changedSelectors (node.subscriptionChange previous) =
      if node.effectiveSubscriptions = previous then none
      else some node.effectiveSubscriptions.toList := by
  simp only [subscriptionChange]
  split <;> rfl

/-- One request. -/
theorem Announces.step {build : Build} {outside : Outside} {rt rt' : RuntimeState}
    {change : SubscriptionChange} {effects : List Effect} {continues : Bool} (h : Announces rt)
    (hfit : Advertisable (change.apply rt.pubsub.localSubscriptions))
    (hstep : rt.iterate build outside (.pubSub change.event) = some (rt', effects, continues)) :
    Announces rt' ∧
      rt'.pubsub.localSubscriptions = change.apply rt.pubsub.localSubscriptions := by
  obtain ⟨pubsub, actions, hhandle, hsubs, hplane⟩ := iterate_pubSub hstep
  have hnext : pubsub.localSubscriptions = change.apply rt.pubsub.localSubscriptions ∧
      actions = pubsub.subscriptionChange rt.pubsub.effectiveSubscriptions := by
    cases change <;>
    · cases hhandle
      exact ⟨rfl, rfl⟩
  obtain ⟨hafter, rfl⟩ := hnext
  refine ⟨?_, hsubs.trans hafter⟩
  rw [subscriptionChange_changed] at hplane
  by_cases hsame : pubsub.effectiveSubscriptions = rt.pubsub.effectiveSubscriptions
  · simp only [if_pos hsame] at hplane
    have hads : selectorAds rt'.pubsub.localSubscriptions =
        selectorAds rt.pubsub.localSubscriptions := by
      simp only [effectiveSubscriptions] at hsame
      rw [selectorAds, hsubs, hsame]
      rfl
    exact ⟨hplane ▸ h.own, by rw [hplane]; exact h.active, by rw [hplane, hads]; exact h.ads⟩
  · simp only [if_neg hsame] at hplane
    obtain ⟨acts, hplane⟩ := hplane
    have hads : pubsub.effectiveSubscriptions.toList.map selectorAd =
        selectorAds rt'.pubsub.localSubscriptions := by
      rw [selectorAds, hsubs]
      rfl
    rw [hads] at hplane
    exact h.announce (by rw [hsubs, hafter]; exact hfit) hplane

/-- The subscriptions after some requests. -/
def subscriptions (changes : List SubscriptionChange) : OrdMap SubId TopicSelector :=
  changes.foldl SubscriptionChange.apply ∅

theorem announces_spawn (me : NodeId) (epoch : UInt32) (seq : UInt64) (policies : TopicPolicies) :
    Announces (RuntimeState.spawn me epoch seq policies) where
  own := own_new me epoch seq
  active hmem := by simp [RuntimeState.spawn, newUnsecuredWithSeq, withAuthAndSeq] at hmem
  ads := rfl

theorem Announces.run {build : Build} : ∀ {requests : List (Outside × SubscriptionChange)}
    {rt rt' : RuntimeState} {effects : List Effect} {continues : Bool}, Announces rt →
    (∀ before, before <+: requests → Advertisable
      ((before.map Prod.snd).foldl SubscriptionChange.apply rt.pubsub.localSubscriptions)) →
    rt.run build (requests.map fun r => (r.1, .pubSub r.2.event)) =
      some (rt', effects, continues) → Announces rt' := by
  intro requests
  induction requests with
  | nil =>
    intro rt rt' effects continues h _ hrun
    cases hrun
    exact h
  | cons request requests ih =>
    intro rt rt' effects continues h hfit hrun
    simp only [List.map_cons, RuntimeState.run, bind, Option.bind_eq_some_iff] at hrun
    obtain ⟨⟨rt1, effects1, flag⟩, hstep, hrun⟩ := hrun
    have hone : [request] <+: request :: requests := ⟨requests, rfl⟩
    obtain ⟨h1, hsubs⟩ := h.step (hfit [request] hone) hstep
    split at hrun
    · cases hrun
      exact h1
    · simp only [Option.bind_eq_some_iff] at hrun
      obtain ⟨⟨rt2, effects2, flag2⟩, hrest, heq⟩ := hrun
      cases heq
      refine ih h1 ?_ hrest
      intro before hbefore
      rw [hsubs]
      exact hfit (request :: before) ((List.prefix_cons_inj request).mpr hbefore)

/-- While the selectors can be advertised after every request, the pairs in the node's own LSA are
those of the current selectors. -/
theorem advertised_eq_subscribed (build : Build) (me : NodeId) (epoch : UInt32) (seq : UInt64)
    (policies : TopicPolicies) (requests : List (Outside × SubscriptionChange))
    (hfit : ∀ before, before <+: requests → Advertisable (subscriptions (before.map Prod.snd)))
    (rt : RuntimeState) (effects : List Effect) (continues : Bool)
    (hrun : (RuntimeState.spawn me epoch seq policies).run build
      (requests.map fun r => (r.1, .pubSub r.2.event)) = some (rt, effects, continues)) :
    advertised rt.plane = subscribed rt.pubsub.localSubscriptions :=
  ((announces_spawn me epoch seq policies).run hfit hrun).advertised

/-! ## Selectors that meet -/

/-- A build whose readers know no message. -/
def plainBuild : Build where
  prost := ⟨fun _ => none, fun _ => none, fun _ => none, fun _ => none⟩
  readEnvelope _ := none
  debug := true

/-- A store that takes every number. -/
def calm (now : MonoTime) : Outside where
  now := now
  peerCosts := ∅
  persists _ := true

/-- All partitions of the topic with a name of one byte. -/
def allOf (name : UInt8) : TopicSelector := ⟨[name], none, rfl⟩

/-- Its empty partition. -/
def emptyOf (name : UInt8) : TopicSelector := ⟨[name], some [], rfl⟩

/-- Topics with partitions of their own are advertised. -/
theorem advertised_eq_subscribed_two :
    ∃ rt effects continues, (RuntimeState.spawn (.ofByte 1) 1 0 .empty).run plainBuild
        [(calm 0, .pubSub (.localSubscribe 1 (allOf 97))),
          (calm 1, .pubSub (.localSubscribe 2 (allOf 98)))] = some (rt, effects, continues) ∧
      advertised rt.plane = subscribed rt.pubsub.localSubscriptions := by
  have hrun : ((RuntimeState.spawn (.ofByte 1) 1 0 .empty).run plainBuild
      ([(calm 0, SubscriptionChange.subscribe 1 (allOf 97)),
        (calm 1, .subscribe 2 (allOf 98))].map
          fun r => (r.1, .pubSub r.2.event))).isSome = true := by
    decide +kernel
  obtain ⟨⟨rt, effects, continues⟩, hrun⟩ := Option.isSome_iff_exists.mp hrun
  have hall : ∀ before ∈ [SubscriptionChange.subscribe 1 (allOf 97), .subscribe 2 (allOf 98)].inits,
      Advertisable (subscriptions before) := by
    decide +kernel
  refine ⟨rt, effects, continues, hrun, advertised_eq_subscribed _ _ _ _ _ _ ?_ _ _ _ hrun⟩
  intro before hbefore
  exact hall _ ((List.mem_inits _ _).mpr (hbefore.map Prod.snd))

/-- Two selectors of one topic meet in one pair: the ads are refused, and the third topic is not
advertised. -/
theorem rejected_subscription_is_not_advertised :
    ∃ rt effects continues, (RuntimeState.spawn (.ofByte 1) 1 0 .empty).run plainBuild
        [(calm 0, .pubSub (.localSubscribe 1 (allOf 97))),
          (calm 1, .pubSub (.localSubscribe 2 (emptyOf 97))),
          (calm 2, .pubSub (.localSubscribe 3 (allOf 98)))] = some (rt, effects, continues) ∧
      ([98], []) ∈ subscribed rt.pubsub.localSubscriptions ∧
      ([98], []) ∉ advertised rt.plane := by
  have hrun : ((RuntimeState.spawn (.ofByte 1) 1 0 .empty).run plainBuild
      [(calm 0, .pubSub (.localSubscribe 1 (allOf 97))),
        (calm 1, .pubSub (.localSubscribe 2 (emptyOf 97))),
        (calm 2, .pubSub (.localSubscribe 3 (allOf 98)))]).map (fun r =>
      decide (([98], []) ∈ subscribed r.1.pubsub.localSubscriptions ∧
        ([98], []) ∉ advertised r.1.plane)) = some true := by
    decide +kernel
  obtain ⟨⟨rt, effects, continues⟩, hrun, hfacts⟩ := Option.map_eq_some_iff.mp hrun
  exact ⟨rt, effects, continues, hrun, of_decide_eq_true hfacts⟩

end Runtime
end MeshBus
