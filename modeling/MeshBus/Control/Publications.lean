import MeshBus.Control.Limits
import MeshBus.Control.Refresh

/-!
# Control.Publications

What a step of the control plane publishes, and what it adds to its counters (`Publication`): at
most one route table, the one it keeps, and at most one list of topic ads, the one it keeps. Every
ad in the database, and so every ad that is published, is within the limits (`Announced`).
-/

namespace MeshBus
namespace Control

variable {p q : ControlPlane} {now : MonoTime} {acts : List ControlAction}

/-- The lists of topic ads that actions publish. -/
def publishedAds (actions : List ControlAction) : List (List DiscoveredTopicAd) :=
  actions.filterMap fun
    | .publishTopicAds ads => some ads
    | _ => none

@[simp] theorem publishedAds_append (a b : List ControlAction) :
    publishedAds (a ++ b) = publishedAds a ++ publishedAds b :=
  List.filterMap_append

/-- Nothing is published. -/
structure Silent (actions : List ControlAction) : Prop where
  routes : published actions = []
  ads : publishedAds actions = []

theorem Silent.append {a b : List ControlAction} (ha : Silent a) (hb : Silent b) :
    Silent (a ++ b) where
  routes := by rw [published_append, ha.routes, hb.routes, List.append_nil]
  ads := by rw [publishedAds_append, ha.ads, hb.ads, List.append_nil]

theorem Replies.silent {actions : List ControlAction} (h : Replies actions) : Silent actions where
  routes := h.published
  ads := by
    rw [publishedAds, List.filterMap_eq_nil_iff]
    intro a ha
    obtain ⟨link, frame, rfl⟩ := h a ha
    rfl

theorem silent_nil : Silent [] := ⟨rfl, rfl⟩

theorem silent_setTimer (timer : ControlTimer) (due : MonoTime) :
    Silent [.setTimer timer due] := ⟨rfl, rfl⟩

namespace ControlPlane

/-- What a step publishes is what it keeps; no counter advances by more than one. -/
structure Publication (p q : ControlPlane) (acts : List ControlAction) : Prop where
  routes : published acts = [] ∧ q.routes = p.routes ∨
    published acts = [q.routes] ∧ q.routes.version = p.routes.version + 1
  ads : publishedAds acts = [] ∧ q.publishedTopicAds = p.publishedTopicAds ∨
    publishedAds acts = [q.publishedTopicAds] ∧ q.publishedTopicAds = q.discovered
  seq : q.mySeq.toNat ≤ p.mySeq.toNat + 1
  generation : q.spfGeneration ≤ p.spfGeneration + 1

theorem Publication.version (h : Publication p q acts) :
    q.routes.version ≤ p.routes.version + 1 := by
  rcases h.routes with ⟨-, hsame⟩ | ⟨-, hnext⟩
  · rw [hsame]
    exact Nat.le_succ _
  · exact hnext.le

theorem Publication.unchanged {p : ControlPlane} (h : Silent acts) : Publication p p acts :=
  ⟨.inl ⟨h.routes, rfl⟩, .inl ⟨h.ads, rfl⟩, Nat.le_succ _, Nat.le_succ _⟩

/-- `mid` is `p` up to what a route computation does not touch. -/
theorem markSpfDirty_publication {p mid q : ControlPlane} {before spf : List ControlAction}
    (h : mid.markSpfDirty now = some (q, spf)) (hbefore : Silent before)
    (hroutes : mid.routes = p.routes) (hads : mid.publishedTopicAds = p.publishedTopicAds)
    (hseq : mid.mySeq.toNat ≤ p.mySeq.toNat + 1)
    (hgeneration : mid.spfGeneration = p.spfGeneration) :
    Publication p q (before ++ spf) := by
  simp only [markSpfDirty] at h
  split at h
  · cases h
    have hsilent := hbefore.append silent_nil
    exact ⟨.inl ⟨hsilent.routes, hroutes⟩, .inl ⟨hsilent.ads, hads⟩, hseq,
      hgeneration.le.trans (Nat.le_succ _)⟩
  · split at h
    · cases h
    · cases h
      refine ⟨.inl ⟨(hbefore.append (silent_setTimer _ _)).routes, hroutes⟩,
        .inl ⟨(hbefore.append (silent_setTimer _ _)).ads, hads⟩, hseq,
        (congrArg (· + 1) hgeneration).le⟩

/-- `mid` is `p` with its links or its topic ads changed. -/
theorem originateLsa_publication {p mid q : ControlPlane}
    (h : mid.originateLsa now = some (q, acts)) (hroutes : mid.routes = p.routes)
    (hads : mid.publishedTopicAds = p.publishedTopicAds) (hseq : mid.mySeq = p.mySeq)
    (hgeneration : mid.spfGeneration = p.spfGeneration) : Publication p q acts := by
  obtain ⟨hmax, -, spf, hd, rfl⟩ := originateLsa_inv h
  have hflood : Silent (.persistSeq (mid.mySeq + 1) :: mid.flood mid.nextMessage none) :=
    (⟨rfl, rfl⟩ : Silent [.persistSeq (mid.mySeq + 1)]).append (flood_replies _ _ _).silent
  refine markSpfDirty_publication hd (hflood.append ⟨rfl, rfl⟩) hroutes hads ?_ hgeneration
  change (mid.mySeq + 1).toNat ≤ _
  have hlt := mid.mySeq.toNat_lt
  rw [UInt64.toNat_add, UInt64.toNat_one, ← hseq]
  omega

theorem recomputeRoutes_publication (h : p.recomputeRoutes = some (q, acts)) :
    (published acts = [] ∧ q.routes = p.routes ∨
      published acts = [q.routes] ∧ q.routes.version = p.routes.version + 1) ∧
    publishedAds acts = [] ∧ q.publishedTopicAds = p.publishedTopicAds ∧ q.mySeq = p.mySeq ∧
    q.spfGeneration = p.spfGeneration := by
  simp only [recomputeRoutes, bind, Option.bind_eq_some_iff] at h
  obtain ⟨routes, -, h⟩ := h
  split at h
  · cases h
    exact ⟨.inl ⟨rfl, rfl⟩, rfl, rfl, rfl, rfl⟩
  · split at h
    · cases h
    · cases h
      exact ⟨.inr ⟨rfl, rfl⟩, rfl, rfl, rfl, rfl⟩

theorem handleSpfTimer_publication {generation : Nat}
    (h : p.handleSpfTimer now generation = some (q, acts)) : Publication p q acts := by
  cases handleSpfTimer_cases h with
  | stale => exact .unchanged silent_nil
  | early => exact .unchanged (silent_setTimer _ _)
  | ran pending waiting current due routed routes computed =>
    obtain ⟨hroutes, hsilent, hads, hseq, hgeneration⟩ := recomputeRoutes_publication computed
    have hsame : routed.recomputeTopicAds.1.routes = routed.routes ∧
        routed.recomputeTopicAds.1.mySeq = routed.mySeq ∧
        routed.recomputeTopicAds.1.spfGeneration = routed.spfGeneration ∧
        published routed.recomputeTopicAds.2 = [] := by
      unfold recomputeTopicAds
      split <;> exact ⟨rfl, rfl, rfl, rfl⟩
    refine ⟨?_, ?_, ?_, ?_⟩
    · rw [published_append, hsame.2.2.2, List.append_nil, hsame.1]
      exact hroutes
    · rw [publishedAds_append, hsilent, List.nil_append]
      unfold recomputeTopicAds
      split
      · exact .inl ⟨rfl, hads⟩
      · exact .inr ⟨rfl, rfl⟩
    · rw [hsame.2.1, hseq]
      exact Nat.le_succ _
    · rw [hsame.2.2.1, hgeneration]
      exact Nat.le_succ _

theorem handle_publication {event : ControlEvent} (h : p.handle now event = some (q, acts)) :
    Publication p q acts := by
  cases handle_cases h with
  | linkUp link peer cost ho =>
    have hpub := originateLsa_publication (p := p) ho rfl rfl rfl rfl
    have hmore : Silent [q.sendDigest link, nextDigestTimer now link] := ⟨rfl, rfl⟩
    refine ⟨?_, ?_, hpub.seq, hpub.generation⟩
    · rw [published_append, hmore.routes, List.append_nil]
      exact hpub.routes
    · rw [publishedAds_append, hmore.ads, List.append_nil]
      exact hpub.ads
  | linkDown link known ho => exact originateLsa_publication ho rfl rfl rfl rfl
  | topicAds ads valid changed ho => exact originateLsa_publication ho rfl rfl rfl rfl
  | refresh epoch seq current ho => exact originateLsa_publication ho rfl rfl rfl rfl
  | unknownLinkDown | keptTopicAds | deadDigestTimer | staleRefresh => exact .unchanged silent_nil
  | lsa link m hr =>
    cases receiveLsa_cases hr with
    | refused _ replies => exact .unchanged replies.silent
    | stored _ marked =>
      exact markSpfDirty_publication marked
        ((flood_replies _ _ _).silent.append (silent_setTimer _ _)) rfl rfl (Nat.le_succ _) rfl
  | digest link entries hd => exact .unchanged (receiveDigest_replies hd).silent
  | digestReq link origins => exact .unchanged (receiveDigestReq_replies _ _ _).silent
  | digestTimer link known => exact .unchanged ⟨rfl, rfl⟩
  | spf generation hspf => exact handleSpfTimer_publication hspf
  | expire origin epoch seq he =>
    cases handleExpireTimer_cases he with
    | stale => exact .unchanged silent_nil
    | early => exact .unchanged (silent_setTimer _ _)
    | expired e active current version isActive due marked =>
      have hpub : Publication p q ([] ++ acts) :=
        markSpfDirty_publication marked silent_nil rfl rfl (Nat.le_succ _) rfl
      exact hpub

/-! ## Every ad is within its limits -/

/-- All ads of active LSAs. -/
def AdsValid (lsdb : OrdMap NodeId LsdbEntry) : Prop :=
  ∀ (o : NodeId) (e : LsdbEntry) (active : ActiveLsa), lsdb[o]? = some e →
    e.active = some active → ∀ ad ∈ active.message.lsa.topics, ValidAd ad

structure Announced (p : ControlPlane) : Prop where
  signs : ∀ lsa, (p.signer lsa).lsa = lsa
  own : ∀ ad ∈ p.localTopicAds, ValidAd ad
  stored : AdsValid p.lsdb
  published : ∀ d ∈ p.publishedTopicAds, ValidAd d.ad

theorem AdsValid.insert {lsdb : OrdMap NodeId LsdbEntry} (h : AdsValid lsdb) (origin : NodeId)
    {entry : LsdbEntry} (hentry : ∀ active, entry.active = some active →
      ∀ ad ∈ active.message.lsa.topics, ValidAd ad) : AdsValid (lsdb.insert origin entry) := by
  intro o e active he hactive
  rw [OrdMap.get_insert] at he
  split at he
  · cases he
    exact hentry active hactive
  · exact h o e active he hactive

theorem AdsValid.activeEntry {lsdb : OrdMap NodeId LsdbEntry} (h : AdsValid lsdb) (origin : NodeId)
    {m : LsaMessage} (now : MonoTime) (hm : ∀ ad ∈ m.lsa.topics, ValidAd ad) :
    AdsValid (lsdb.insert origin (ControlPlane.activeEntry m now)) := by
  refine h.insert origin fun active hactive => ?_
  cases hactive
  exact hm

/-- The ads that are discovered are those of the active LSAs. -/
theorem mem_discovered {p : ControlPlane} {d : DiscoveredTopicAd} :
    d ∈ p.discovered ↔ ∃ e active, p.lsdb[d.node]? = some e ∧ e.active = some active ∧
      d.ad ∈ active.message.lsa.topics := by
  rw [discovered, (List.perm_insertionSort _ _).mem_iff, List.mem_flatMap]
  constructor
  · rintro ⟨⟨o, e⟩, he, hd⟩
    cases hactive : e.active with
    | none => simp [hactive] at hd
    | some active =>
      simp only [hactive, Option.map_some, Option.getD_some] at hd
      obtain ⟨ad, had, rfl⟩ := List.mem_map.mp hd
      exact ⟨e, active, OrdMap.mem_toList.mp he, hactive, had⟩
  · rintro ⟨e, active, he, hactive, had⟩
    refine ⟨(d.node, e), OrdMap.mem_toList.mpr he, ?_⟩
    simp only [hactive, Option.map_some, Option.getD_some]
    exact List.mem_map.mpr ⟨d.ad, had, rfl⟩

theorem discovered_valid {p : ControlPlane} (h : AdsValid p.lsdb) :
    ∀ d ∈ p.discovered, ValidAd d.ad := by
  intro d hd
  obtain ⟨e, active, he, hactive, had⟩ := mem_discovered.mp hd
  exact h d.node e active he hactive d.ad had

theorem originateLsa_adsValid (h : p.originateLsa now = some (q, acts))
    (hsigns : ∀ lsa, (p.signer lsa).lsa = lsa) (hown : ∀ ad ∈ p.localTopicAds, ValidAd ad)
    (hstored : AdsValid p.lsdb) : AdsValid q.lsdb := by
  obtain ⟨-, -, spf, hd, -⟩ := originateLsa_inv h
  rw [(markSpfDirty_spec hd).1.lsdb]
  refine hstored.activeEntry _ now ?_
  rw [nextMessage, hsigns]
  exact hown

theorem handle_adsValid {event : ControlEvent} (hp : Announced p)
    (h : p.handle now event = some (q, acts)) : AdsValid q.lsdb := by
  cases handle_cases h with
  | linkUp link peer cost ho => exact originateLsa_adsValid ho hp.signs hp.own hp.stored
  | linkDown link known ho => exact originateLsa_adsValid ho hp.signs hp.own hp.stored
  | topicAds ads valid changed ho =>
    exact originateLsa_adsValid ho hp.signs (validTopicAds_iff.mp valid).2.1 hp.stored
  | refresh epoch seq current ho => exact originateLsa_adsValid ho hp.signs hp.own hp.stored
  | unknownLinkDown | keptTopicAds | deadDigestTimer | staleRefresh | digest | digestReq |
    digestTimer => exact hp.stored
  | lsa link m hr =>
    cases receiveLsa_cases hr with
    | refused => exact hp.stored
    | stored accepted marked =>
      rw [(markSpfDirty_spec marked).1.lsdb]
      simp only [accepts, Bool.and_eq_true] at accepted
      exact hp.stored.activeEntry _ now (validLsa_iff.mp accepted.1.1.1.1.2).2.2.2.1
  | spf generation hspf =>
    rw [(handleSpfTimer_spec hspf).1.lsdb]
    exact hp.stored
  | expire origin epoch seq he =>
    cases handleExpireTimer_cases he with
    | stale => exact hp.stored
    | early => exact hp.stored
    | expired e active current version isActive due marked =>
      rw [(markSpfDirty_spec marked).1.lsdb]
      refine hp.stored.insert origin fun active' hactive' => ?_
      cases hactive'

theorem Announced.step {event : ControlEvent} (hp : Announced p)
    (h : p.handle now event = some (q, acts)) : Announced q := by
  have hout := handle_spec h
  have hstored := handle_adsValid hp h
  refine ⟨?_, ?_, hstored, ?_⟩
  · rw [hout.effect.same.signer]
    exact hp.signs
  · rcases hout.localTopicAds with hsame | ⟨ads, -, hq, hvalid⟩
    · rw [hsame]
      exact hp.own
    · rw [hq]
      exact (validTopicAds_iff.mp hvalid).2.1
  · rcases (handle_publication h).ads with ⟨-, hsame⟩ | ⟨-, hnew⟩
    · rw [hsame]
      exact hp.published
    · rw [hnew]
      exact discovered_valid hstored

theorem announced_new (me : NodeId) (epoch : UInt32) (lastSeq : UInt64) :
    Announced (newUnsecuredWithSeq me epoch lastSeq) where
  signs := fun _ => rfl
  own := fun _ had => by cases had
  stored := fun o e active he => by
    simp [newUnsecuredWithSeq, withAuthAndSeq] at he
  published := fun _ hd => by cases hd

end ControlPlane
end Control
end MeshBus
