import MeshBus.Runtime.Loop

/-!
# Runtime.Discovery

Who a publisher finds for a topic. A node's selectors are published as ads of a topic and a
partition, and every other node reads selectors back from the ads (`discovery_from_topic_ads`).
An ad with the empty partition is read as all partitions, whichever selector it was made from, so
what is found for a topic are the nodes with a selector that matches it *as read*.
-/

namespace MeshBus
namespace Runtime

open Control PubSub

/-! ## One ad -/

/-- The selector that is read from an ad. -/
def adSelector (ad : TopicAd) : Except TopicError TopicSelector :=
  if ad.partition.isEmpty then TopicSelector.allPartitions ad.topic
  else (TopicKey.new ad.topic ad.partition).map TopicSelector.exact

/-- A selector as the other nodes read it. -/
def asRead (selector : TopicSelector) : TopicSelector where
  name := selector.name
  partition := if selector.partition = some [] then none else selector.partition
  valid := by
    have h := selector.valid
    split
    · rename_i hempty
      rw [hempty] at h
      exact h
    · exact h

theorem adSelector_selectorAd (selector : TopicSelector) :
    adSelector (selectorAd selector) = .ok (asRead selector) := by
  obtain ⟨name, partition, valid⟩ := selector
  cases partition with
  | none =>
    simp only [adSelector, selectorAd, asRead, Option.getD_none, List.isEmpty_nil, if_true,
      TopicSelector.allPartitions]
    split
    · rfl
    · rename_i e he
      cases valid.symm.trans he
  | some p =>
    by_cases hp : p = []
    · subst hp
      simp only [adSelector, selectorAd, asRead, Option.getD_some, List.isEmpty_nil, if_true,
        TopicSelector.allPartitions]
      split
      · rfl
      · rename_i e he
        cases valid.symm.trans he
    · have hkey := TopicKey.new_self ⟨name, p, valid⟩
      simp only at hkey
      simp [adSelector, selectorAd, asRead, hp, hkey, Except.map, TopicSelector.exact]

theorem selectorAd_subscribes (selector : TopicSelector) :
    (selectorAd selector).roles.contains .subscribe = true := by
  simp [selectorAd, TopicRoles.contains]

/-- The difference is seen for the partitions other than the empty one. -/
theorem asRead_matches {selector : TopicSelector} {topic : TopicKey} :
    (asRead selector).matchesTopic topic = true ↔
      selector.matchesTopic topic = true ∨
        selector.name = topic.name ∧ selector.partition = some [] := by
  obtain ⟨name, partition, valid⟩ := selector
  cases partition with
  | none => simp [asRead, TopicSelector.matchesTopic]
  | some p =>
    by_cases hp : p = []
    · subst hp
      simp only [asRead, if_true, TopicSelector.matchesTopic, Bool.and_true, beq_iff_eq,
        Bool.and_eq_true, and_true]
      exact ⟨.inr, fun h => h.elim And.left id⟩
    · simp [asRead, TopicSelector.matchesTopic, hp]

/-! ## The index -/

theorem foldlM_discover : ∀ {ads : List DiscoveredTopicAd}
    (m : OrdMap TopicSelector (OrdSet NodeId)),
    (∀ d ∈ ads, d.ad.roles.contains .subscribe = true → ∃ s, adSelector d.ad = .ok s) →
    ∃ m', ads.foldlM discover m = some m' ∧ ∀ selector node,
      node ∈ m'[selector]?.getD ∅ ↔ node ∈ m[selector]?.getD ∅ ∨
        ∃ d ∈ ads, d.node = node ∧ d.ad.roles.contains .subscribe = true ∧
          adSelector d.ad = .ok selector := by
  intro ads
  induction ads with
  | nil =>
    intro m _
    exact ⟨m, rfl, by simp⟩
  | cons d ads ih =>
    intro m hads
    have hrest : ∀ x ∈ ads, x.ad.roles.contains .subscribe = true → ∃ s, adSelector x.ad = .ok s :=
      fun x hx => hads x (List.mem_cons_of_mem _ hx)
    cases hrole : d.ad.roles.contains .subscribe with
    | false =>
      obtain ⟨m', hfold, hm'⟩ := ih m hrest
      refine ⟨m', ?_, ?_⟩
      · rw [List.foldlM_cons, discover, hrole]
        exact hfold
      · intro selector node
        rw [hm' selector node]
        simp [hrole]
    | true =>
      obtain ⟨s, hs⟩ := hads d List.mem_cons_self hrole
      obtain ⟨m', hfold, hm'⟩ := ih (m.insert s ((m[s]?.getD ∅).insert d.node)) hrest
      refine ⟨m', ?_, ?_⟩
      · have hdiscover : discover m d = some (m.insert s ((m[s]?.getD ∅).insert d.node)) := by
          rw [adSelector] at hs
          simp only [discover, hrole, hs, Bool.not_true, Bool.false_eq_true, if_false]
        rw [List.foldlM_cons, hdiscover]
        exact hfold
      · intro selector node
        rw [hm' selector node, OrdMap.get_insert]
        by_cases hsel : s = selector
        · subst hsel
          simp [hs, hrole, or_left_comm, or_assoc]
        · have hne : adSelector d.ad ≠ .ok selector := by
            rw [hs]
            intro heq
            exact hsel (Except.ok.inj heq)
          simp [hsel, hne]

/-- The last loop of `discovery_from_topic_ads`. -/
def setAll (index : DiscoveryIndex) (entries : List (TopicSelector × OrdSet NodeId)) :
    DiscoveryIndex :=
  entries.foldl (fun index e => index.setSubscribers e.1 e.2.toList) index

theorem setAll_get : ∀ {entries : List (TopicSelector × OrdSet NodeId)}
    (index : DiscoveryIndex) (selector : TopicSelector), (entries.map Prod.fst).Nodup →
    (∀ nodes, (selector, nodes) ∈ entries →
      (setAll index entries).subscribersOf[selector]? = some (.ofList nodes.toList)) ∧
    (selector ∉ entries.map Prod.fst →
      (setAll index entries).subscribersOf[selector]? = index.subscribersOf[selector]?) := by
  intro entries
  induction entries with
  | nil =>
    intro index selector _
    exact ⟨by simp, fun _ => rfl⟩
  | cons e entries ih =>
    intro index selector hnodup
    rw [List.map_cons, List.nodup_cons] at hnodup
    obtain ⟨hin, hout⟩ := ih (index.setSubscribers e.1 e.2.toList) selector hnodup.2
    refine ⟨?_, ?_⟩
    · intro nodes hmem
      rcases List.mem_cons.mp hmem with rfl | hmem
      · rw [setAll, List.foldl_cons, ← setAll, hout hnodup.1, DiscoveryIndex.setSubscribers,
          OrdMap.get_insert, if_pos rfl]
      · exact hin nodes hmem
    · intro hnot
      rw [List.map_cons, List.mem_cons, not_or] at hnot
      rw [setAll, List.foldl_cons, ← setAll, hout hnot.2, DiscoveryIndex.setSubscribers,
        OrdMap.get_insert, if_neg (Ne.symm hnot.1)]

theorem mem_subscribers {index : DiscoveryIndex} {topic : TopicKey} {node : NodeId} :
    node ∈ index.subscribers topic ↔ ∃ selector : TopicSelector,
      selector.matchesTopic topic = true ∧ node ∈ index.subscribersOf[selector]?.getD ∅ := by
  simp only [DiscoveryIndex.subscribers, OrdSet.mem_ofList, List.mem_flatMap, List.mem_filter,
    Prod.exists, OrdMap.mem_toList, Std.ExtTreeSet.mem_toList]
  constructor
  · rintro ⟨selector, nodes, ⟨hget, hmatch⟩, hnode⟩
    exact ⟨selector, hmatch, by rw [hget]; exact hnode⟩
  · rintro ⟨selector, hmatch, hnode⟩
    cases hget : index.subscribersOf[selector]? with
    | none =>
      rw [hget] at hnode
      simp at hnode
    | some nodes =>
      rw [hget] at hnode
      exact ⟨selector, nodes, ⟨hget, hmatch⟩, hnode⟩

/-- Who is found for a topic: the nodes of the ads that are read as a matching selector. -/
theorem discoveryFromTopicAds_spec {ads : List DiscoveredTopicAd}
    (hads : ∀ d ∈ ads, d.ad.roles.contains .subscribe = true → ∃ s, adSelector d.ad = .ok s) :
    ∃ index : DiscoveryIndex, discoveryFromTopicAds ads = some index ∧ ∀ topic node,
      node ∈ index.subscribers topic ↔ ∃ d ∈ ads, d.node = node ∧
        d.ad.roles.contains .subscribe = true ∧
        ∃ selector, adSelector d.ad = .ok selector ∧ selector.matchesTopic topic = true := by
  obtain ⟨m, hfold, hm⟩ := foldlM_discover ∅ hads
  refine ⟨setAll .empty m.toList, by rw [discoveryFromTopicAds, hfold]; rfl, ?_⟩
  intro topic node
  have hkeys := OrdMap.nodup_fst_toList m
  have hindex : ∀ selector : TopicSelector,
      node ∈ (setAll .empty m.toList).subscribersOf[selector]?.getD ∅ ↔
        node ∈ m[selector]?.getD ∅ := by
    intro selector
    obtain ⟨hin, hout⟩ := setAll_get .empty selector hkeys
    cases hget : m[selector]? with
    | none =>
      have hnot : selector ∉ m.toList.map Prod.fst := by
        rintro hmem
        obtain ⟨⟨k, nodes⟩, he, rfl⟩ := List.mem_map.mp hmem
        rw [OrdMap.mem_toList.mp he] at hget
        cases hget
      rw [hout hnot]
      simp [DiscoveryIndex.empty]
    | some nodes =>
      rw [hin nodes (OrdMap.mem_toList.mpr hget)]
      simp
  rw [mem_subscribers]
  simp only [hindex, hm]
  constructor
  · rintro ⟨selector, hmatch, hnode | ⟨d, hd, hnode, hrole, hsel⟩⟩
    · simp at hnode
    · exact ⟨d, hd, hnode, hrole, selector, hsel, hmatch⟩
  · rintro ⟨d, hd, hnode, hrole, selector, hsel, hmatch⟩
    exact ⟨selector, hmatch, .inr ⟨d, hd, hnode, hrole, hsel⟩⟩

/-! ## Published selectors -/

/-- The ads of the nodes' selectors are published, and no other node or topic subscribes. Ads of
other roles may be there too. -/
structure Published (selectors : NodeId → List TopicSelector) (ads : List DiscoveredTopicAd) :
    Prop where
  all : ∀ node, ∀ s ∈ selectors node, ⟨node, selectorAd s⟩ ∈ ads
  only : ∀ d ∈ ads, d.ad.roles.contains .subscribe = true →
    ∃ s ∈ selectors d.node, d.ad = selectorAd s

theorem Published.subscribers {selectors : NodeId → List TopicSelector}
    {ads : List DiscoveredTopicAd} (h : Published selectors ads) :
    ∃ index, discoveryFromTopicAds ads = some index ∧ ∀ topic node,
      node ∈ index.subscribers topic ↔
        ∃ s ∈ selectors node, (asRead s).matchesTopic topic = true := by
  have hreads : ∀ d ∈ ads, d.ad.roles.contains .subscribe = true →
      ∃ s, adSelector d.ad = .ok s := by
    intro d hd hrole
    obtain ⟨s, -, heq⟩ := h.only d hd hrole
    exact ⟨asRead s, by rw [heq, adSelector_selectorAd]⟩
  obtain ⟨index, hindex, hspec⟩ := discoveryFromTopicAds_spec hreads
  refine ⟨index, hindex, fun topic node => ?_⟩
  rw [hspec]
  constructor
  · rintro ⟨d, hd, rfl, hrole, selector, hsel, hmatch⟩
    obtain ⟨s, hs, heq⟩ := h.only d hd hrole
    rw [heq, adSelector_selectorAd] at hsel
    cases hsel
    exact ⟨s, hs, hmatch⟩
  · rintro ⟨s, hs, hmatch⟩
    exact ⟨⟨node, selectorAd s⟩, h.all node s hs, rfl, selectorAd_subscribes s, asRead s,
      adSelector_selectorAd s, hmatch⟩

/-- A valid list of ads is too short to list every partition of a topic, and lists the empty
partition once: a topic of that name is left that no selector of the node matches. -/
theorem exists_unmatched {selectors : List TopicSelector} {s : TopicSelector}
    (hvalid : validTopicAds (selectors.map selectorAd) = true) (hs : s ∈ selectors)
    (hempty : s.partition = some []) :
    ∃ topic : TopicKey, topic.name = s.name ∧
      ∀ x ∈ selectors, x.matchesTopic topic = false := by
  obtain ⟨hcount, -, hnodup⟩ := validTopicAds_iff.mp hvalid
  rw [List.length_map] at hcount
  rw [List.map_map] at hnodup
  have hfresh : ∃ k ∈ Finset.Icc 1 (maxLsaTopicAds + 1),
      some (List.replicate k (0 : UInt8)) ∉ selectors.map TopicSelector.partition := by
    by_contra hall
    push Not at hall
    have hsub : (Finset.Icc 1 (maxLsaTopicAds + 1)).image
        (fun k => some (List.replicate k (0 : UInt8))) ⊆
          (selectors.map TopicSelector.partition).toFinset := by
      intro p hp
      obtain ⟨k, hk, rfl⟩ := Finset.mem_image.mp hp
      exact List.mem_toFinset.mpr (hall k hk)
    have hinj : Function.Injective fun k => some (List.replicate k (0 : UInt8)) := by
      intro a b hab
      have hlen := congrArg List.length (Option.some.inj hab)
      rwa [List.length_replicate, List.length_replicate] at hlen
    have hcard := Finset.card_le_card hsub
    rw [Finset.card_image_of_injective _ hinj, Nat.card_Icc] at hcard
    have hlen := List.toFinset_card_le (selectors.map TopicSelector.partition)
    rw [List.length_map] at hlen
    omega
  obtain ⟨k, hk, hnot⟩ := hfresh
  obtain ⟨hpos, hle⟩ := Finset.mem_Icc.mp hk
  have hname := s.valid
  rw [hempty, validateTopic_iff] at hname
  have htopic : validateTopic s.name (List.replicate k 0) = .ok () := by
    rw [validateTopic_iff, List.length_replicate]
    refine ⟨hname.1, hname.2.1, hle.trans ?_⟩
    decide
  refine ⟨⟨s.name, List.replicate k 0, htopic⟩, rfl, ?_⟩
  intro x hx
  by_contra hmatch
  simp only [TopicSelector.matchesTopic, Bool.not_eq_false, Bool.and_eq_true, beq_iff_eq] at hmatch
  obtain ⟨hsame, hpart⟩ := hmatch
  split at hpart
  · rename_i hall
    -- all partitions and the empty partition of one name are the same ad
    have heq : x = s := by
      refine List.inj_on_of_nodup_map hnodup hx hs ?_
      simp [selectorAd, hsame, hall, hempty]
    rw [heq, hempty] at hall
    cases hall
  · rename_i p hp
    rw [beq_iff_eq.mp hpart] at hp
    exact hnot (hp ▸ List.mem_map_of_mem hx)

/-- What a publisher finds for every topic is exactly who subscribed to it, unless some node
subscribed to the empty partition alone, which the others read as all partitions. -/
theorem discovery_exact_iff (selectors : NodeId → List TopicSelector)
    (ads : List DiscoveredTopicAd)
    (hvalid : ∀ node, validTopicAds ((selectors node).map selectorAd) = true)
    (hads : Published selectors ads) :
    ∃ index, discoveryFromTopicAds ads = some index ∧
      ((∀ node topic, node ∈ index.subscribers topic ↔
          ∃ s ∈ selectors node, s.matchesTopic topic = true) ↔
        ∀ node, ∀ s ∈ selectors node, s.partition ≠ some []) := by
  obtain ⟨index, hindex, hfound⟩ := hads.subscribers
  refine ⟨index, hindex, ?_⟩
  simp only [hfound]
  constructor
  · intro hexact node s hs hempty
    obtain ⟨topic, hname, hnone⟩ := exists_unmatched (hvalid node) hs hempty
    obtain ⟨x, hx, hmatch⟩ := (hexact node topic).mp
      ⟨s, hs, asRead_matches.mpr (.inr ⟨hname.symm, hempty⟩)⟩
    rw [hnone x hx] at hmatch
    cases hmatch
  · intro hparts node topic
    constructor
    · rintro ⟨s, hs, hmatch⟩
      rcases asRead_matches.mp hmatch with hmatch | ⟨-, hempty⟩
      · exact ⟨s, hs, hmatch⟩
      · exact absurd hempty (hparts node s hs)
    · rintro ⟨s, hs, hmatch⟩
      exact ⟨s, hs, asRead_matches.mpr (.inl hmatch)⟩

/-- The selectors of one node, when no other node subscribes. -/
def selectorsOf (node : NodeId) (selectors : List TopicSelector) : NodeId → List TopicSelector :=
  fun other => if other = node then selectors else []

theorem published_selectorsOf (node : NodeId) (selectors : List TopicSelector) :
    Published (selectorsOf node selectors) (selectors.map fun s => ⟨node, selectorAd s⟩) := by
  refine ⟨?_, ?_⟩
  · intro other s hs
    rw [selectorsOf] at hs
    split at hs
    · rename_i heq
      rw [heq]
      exact List.mem_map_of_mem hs
    · cases hs
  · intro d hd _
    obtain ⟨s, hs, rfl⟩ := List.mem_map.mp hd
    rw [selectorsOf, if_pos rfl]
    exact ⟨s, hs, rfl⟩

theorem valid_selectorsOf {node : NodeId} {selectors : List TopicSelector}
    (h : validTopicAds (selectors.map selectorAd) = true) (other : NodeId) :
    validTopicAds ((selectorsOf node selectors other).map selectorAd) = true := by
  rw [selectorsOf]
  split
  · exact h
  · exact (by decide +kernel : validTopicAds [] = true)

/-- Topic `t` with the empty partition, and with partition 1. -/
def plainTopic : TopicKey := .ofByte 116

def partTopic : TopicKey := ⟨[116], [1], rfl⟩

theorem discovery_exact_iff_part :
    validTopicAds [selectorAd (.exact partTopic)] = true ∧
    ∃ index, discoveryFromTopicAds [⟨.ofByte 2, selectorAd (.exact partTopic)⟩] = some index ∧
      .ofByte 2 ∈ index.subscribers partTopic ∧ .ofByte 2 ∉ index.subscribers plainTopic := by
  have hvalid : validTopicAds [selectorAd (.exact partTopic)] = true := by decide +kernel
  obtain ⟨index, hindex, hiff⟩ := discovery_exact_iff
    (selectorsOf (.ofByte 2) [.exact partTopic]) [⟨.ofByte 2, selectorAd (.exact partTopic)⟩]
    (valid_selectorsOf hvalid) (published_selectorsOf (.ofByte 2) [.exact partTopic])
  have hexact := hiff.mpr fun node s hs => by
    rw [selectorsOf] at hs
    split at hs
    · rw [List.mem_singleton.mp hs]
      decide
    · cases hs
  refine ⟨hvalid, index, hindex, ?_, ?_⟩
  · rw [hexact, selectorsOf, if_pos rfl]
    exact ⟨_, List.mem_singleton_self _, by decide⟩
  · rw [hexact, selectorsOf, if_pos rfl]
    rintro ⟨s, hs, hmatch⟩
    rw [List.mem_singleton.mp hs] at hmatch
    exact absurd hmatch (by decide)

/-- Node 2 subscribes to the empty partition of a topic, and is found for another partition. -/
theorem empty_partition_read_as_all :
    validTopicAds [selectorAd (.exact plainTopic)] = true ∧
    Published (selectorsOf (.ofByte 2) [.exact plainTopic])
      [⟨.ofByte 2, selectorAd (.exact plainTopic)⟩] ∧
    ∃ index, discoveryFromTopicAds [⟨.ofByte 2, selectorAd (.exact plainTopic)⟩] = some index ∧
      .ofByte 2 ∈ index.subscribers partTopic ∧
      ∀ s ∈ selectorsOf (.ofByte 2) [.exact plainTopic] (.ofByte 2),
        s.matchesTopic partTopic = false := by
  have hpublished := published_selectorsOf (.ofByte 2) [.exact plainTopic]
  obtain ⟨index, hindex, hfound⟩ := hpublished.subscribers
  refine ⟨by decide +kernel, hpublished, index, hindex, ?_, ?_⟩
  · rw [hfound, selectorsOf, if_pos rfl]
    exact ⟨_, List.mem_singleton_self _, by decide⟩
  · intro s hs
    rw [selectorsOf, if_pos rfl] at hs
    rw [List.mem_singleton.mp hs]
    decide

end Runtime
end MeshBus
