import MeshBus.Control.Receive

/-!
# Control.Cases

The handlers of the control plane, inverted: for each of them, the cases that a call that returns
can be, with everything it returns. What the following modules say of a step they prove from these
cases.

* `receiveLsa_cases`, `handleSpfTimer_cases`, `handleExpireTimer_cases`.
* `handle_cases`: all events.
* `handle_unknownLink`: a frame over a link that is no adjacency.
-/

namespace MeshBus
namespace Control
namespace ControlPlane

/-- What `receive_lsa` asks of a message that it stores. -/
def accepts (p : ControlPlane) (incoming : LinkId) (m : LsaMessage) : Bool :=
  p.adjacencies.contains incoming && validLsa m.lsa && p.verifier m && m.lsa.origin ≠ p.me &&
    p.isNewer m.lsa && (p.lsdb.contains m.lsa.origin || p.lsdb.size < maxLsdbEntries)

inductive LsaCase (p : ControlPlane) (now : MonoTime) (incoming : LinkId) (m : LsaMessage) :
    ControlPlane → List ControlAction → Prop
  | refused {acts} (h : p.accepts incoming m = false) (replies : Replies acts) :
      LsaCase p now incoming m p acts
  | stored {q spf} (h : p.accepts incoming m = true)
      (marked : { p with lsdb := p.lsdb.insert m.lsa.origin (activeEntry m now) }.markSpfDirty now =
        some (q, spf)) :
      LsaCase p now incoming m q (p.flood m (some incoming) ++ [installTimer m now] ++ spf)

theorem receiveLsa_cases {p q : ControlPlane} {now : MonoTime} {incoming : LinkId} {m : LsaMessage}
    {acts : List ControlAction} (h : p.receiveLsa now incoming m = some (q, acts)) :
    LsaCase p now incoming m q acts := by
  have hnil : Replies [] := fun _ hmem => by cases hmem
  simp only [receiveLsa] at h
  split at h
  · rename_i hbad
    cases h
    refine .refused ?_ hnil
    simp only [Bool.or_eq_true, Bool.not_eq_true'] at hbad
    rcases hbad with (hbad | hbad) | hbad <;> simp [accepts, hbad]
  · rename_i hgood
    simp only [Bool.or_eq_true, Bool.not_eq_true', not_or, Bool.not_eq_false] at hgood
    split at h
    · rename_i hown
      cases h
      exact .refused (by simp [accepts, hown]) (staleReply_replies _ _ _)
    · rename_i hforeign
      split at h
      · rename_i hstale
        cases h
        rw [Bool.not_eq_true'] at hstale
        exact .refused (by simp [accepts, hstale]) (staleReply_replies _ _ _)
      · rename_i hnewer
        rw [Bool.not_eq_true', Bool.not_eq_false] at hnewer
        split at h
        · rename_i hfull
          cases h
          obtain ⟨hnew, hsize⟩ := install_none hfull
          exact .refused (by simp [accepts, hnew, hsize]) hnil
        · rename_i installed expiry hi
          simp only [bind, Option.bind_eq_some_iff] at h
          obtain ⟨⟨dirty, spf⟩, hd, heq⟩ := h
          have hroom := install_room hi
          obtain ⟨rfl, rfl⟩ := install_spec hi
          cases heq
          refine .stored ?_ hd
          simp [accepts, hgood, hforeign, hnewer, hroom]

inductive SpfCase (p : ControlPlane) (now : MonoTime) (generation : Nat) :
    ControlPlane → List ControlAction → Prop
  | stale (h : ∀ pending, p.pendingSpf = some pending → pending.generation ≠ generation) :
      SpfCase p now generation p []
  | early (pending : PendingSpf) (waiting : p.pendingSpf = some pending)
      (current : pending.generation = generation) (h : now < pending.due) :
      SpfCase p now generation p [.setTimer (.spfHold generation) pending.due]
  | ran (pending : PendingSpf) (waiting : p.pendingSpf = some pending)
      (current : pending.generation = generation) (due : pending.due ≤ now)
      (routed : ControlPlane) (routes : List ControlAction)
      (computed : { p with
        pendingSpf := none
        spfHoldMs := min (satMul p.spfHoldMs 2) spfMaxHoldMs }.recomputeRoutes =
          some (routed, routes)) :
      SpfCase p now generation routed.recomputeTopicAds.1 (routes ++ routed.recomputeTopicAds.2)

theorem handleSpfTimer_cases {p q : ControlPlane} {now : MonoTime} {generation : Nat}
    {acts : List ControlAction} (h : p.handleSpfTimer now generation = some (q, acts)) :
    SpfCase p now generation q acts := by
  simp only [handleSpfTimer] at h
  split at h
  · rename_i hidle
    cases h
    exact .stale fun pending hp => by simp [hidle] at hp
  · rename_i pending hpending
    split at h
    · rename_i hother
      cases h
      refine .stale fun pending' hp => ?_
      cases hpending.symm.trans hp
      exact hother
    · rename_i hcurrent
      rw [ne_eq, not_not] at hcurrent
      split at h
      · rename_i hearly
        cases h
        exact .early pending hpending hcurrent hearly
      · rename_i hlate
        simp only [bind, Option.bind_eq_some_iff] at h
        obtain ⟨⟨routed, routes⟩, hr, heq⟩ := h
        cases heq
        exact .ran pending hpending hcurrent (Nat.not_lt.mp hlate) routed routes hr

inductive ExpireCase (p : ControlPlane) (now : MonoTime) (origin : NodeId) (epoch : UInt32)
    (seq : UInt64) : ControlPlane → List ControlAction → Prop
  | stale (h : ∀ e : LsdbEntry, p.lsdb[origin]? = some e → e.version = ⟨epoch, seq⟩ →
      e.active = none) : ExpireCase p now origin epoch seq p []
  | early (e : LsdbEntry) (active : ActiveLsa) (current : p.lsdb[origin]? = some e)
      (version : e.version = ⟨epoch, seq⟩) (isActive : e.active = some active)
      (h : now < active.expiresAt) : ExpireCase p now origin epoch seq p
        [.setTimer (.lsaExpire origin epoch seq) active.expiresAt]
  | expired {q acts} (e : LsdbEntry) (active : ActiveLsa) (current : p.lsdb[origin]? = some e)
      (version : e.version = ⟨epoch, seq⟩) (isActive : e.active = some active)
      (due : active.expiresAt ≤ now)
      (marked : { p with lsdb := p.lsdb.insert origin { e with state := .tombstone } }.markSpfDirty
        now = some (q, acts)) : ExpireCase p now origin epoch seq q acts

theorem handleExpireTimer_cases {p q : ControlPlane} {now : MonoTime} {origin : NodeId}
    {epoch : UInt32} {seq : UInt64} {acts : List ControlAction}
    (h : p.handleExpireTimer now origin epoch seq = some (q, acts)) :
    ExpireCase p now origin epoch seq q acts := by
  simp only [handleExpireTimer] at h
  split at h
  · rename_i hnone
    cases h
    exact .stale fun e he => by simp [hnone] at he
  · rename_i entry hentry
    split at h
    · rename_i hversion
      cases h
      refine .stale fun e he hv => ?_
      cases hentry.symm.trans he
      exact absurd hv hversion
    · rename_i hversion
      rw [ne_eq, not_not] at hversion
      split at h
      · rename_i hexpired
        cases h
        refine .stale fun e he _ => ?_
        cases hentry.symm.trans he
        exact hexpired
      · rename_i active hactive
        split at h
        · rename_i hearly
          cases h
          exact .early entry active hentry hversion hactive hearly
        · rename_i hlate
          exact .expired entry active hentry hversion hactive (Nat.not_lt.mp hlate) h

/-- The node's own LSA has the given version and is active. -/
def ownCurrent (p : ControlPlane) (epoch : UInt32) (seq : UInt64) : Bool :=
  p.lsdb[p.me]?.any fun entry => entry.version = ⟨epoch, seq⟩ && entry.active.isSome

/-- What `handle` does, event by event. -/
inductive Handled (p : ControlPlane) (now : MonoTime) :
    ControlEvent → ControlPlane → List ControlAction → Prop
  | linkUp {q acts} (link : LinkId) (peer : NodeId) (cost : LinkCost)
      (h : { p with adjacencies := p.adjacencies.insert link ⟨peer, cost⟩ }.originateLsa now =
        some (q, acts)) :
      Handled p now (.linkUp link peer cost) q
        (acts ++ [q.sendDigest link, nextDigestTimer now link])
  | linkDown {q acts} (link : LinkId) (known : link ∈ p.adjacencies)
      (h : { p with adjacencies := p.adjacencies.erase link }.originateLsa now = some (q, acts)) :
      Handled p now (.linkDown link) q acts
  | unknownLinkDown (link : LinkId) (unknown : link ∉ p.adjacencies) :
      Handled p now (.linkDown link) p []
  | topicAds {q acts} (ads : List TopicAd)
      (valid : validTopicAds (ads.insertionSort (· ≤ ·)) = true)
      (changed : ads.insertionSort (· ≤ ·) ≠ p.localTopicAds)
      (h : { p with localTopicAds := ads.insertionSort (· ≤ ·) }.originateLsa now =
        some (q, acts)) : Handled p now (.localTopicAdsChanged ads) q acts
  | keptTopicAds (ads : List TopicAd)
      (kept : validTopicAds (ads.insertionSort (· ≤ ·)) = false ∨
        ads.insertionSort (· ≤ ·) = p.localTopicAds) :
      Handled p now (.localTopicAdsChanged ads) p []
  | lsa {q acts} (link : LinkId) (m : LsaMessage)
      (h : p.receiveLsa now link m = some (q, acts)) :
      Handled p now (.frame link (.lsa m)) q acts
  | digest {acts} (link : LinkId) (entries : List DigestEntry)
      (h : p.receiveDigest link entries = some acts) :
      Handled p now (.frame link (.digest entries)) p acts
  | digestReq (link : LinkId) (origins : List NodeId) :
      Handled p now (.frame link (.digestReq origins)) p (p.receiveDigestReq link origins)
  | digestTimer (link : LinkId) (known : link ∈ p.adjacencies) :
      Handled p now (.timer (.digest link)) p [p.sendDigest link, nextDigestTimer now link]
  | deadDigestTimer (link : LinkId) (unknown : link ∉ p.adjacencies) :
      Handled p now (.timer (.digest link)) p []
  | spf {q acts} (generation : Nat) (h : p.handleSpfTimer now generation = some (q, acts)) :
      Handled p now (.timer (.spfHold generation)) q acts
  | refresh {q acts} (epoch : UInt32) (seq : UInt64) (current : p.ownCurrent epoch seq = true)
      (h : p.originateLsa now = some (q, acts)) :
      Handled p now (.timer (.lsaRefresh epoch seq)) q acts
  | staleRefresh (epoch : UInt32) (seq : UInt64) (stale : p.ownCurrent epoch seq = false) :
      Handled p now (.timer (.lsaRefresh epoch seq)) p []
  | expire {q acts} (origin : NodeId) (epoch : UInt32) (seq : UInt64)
      (h : p.handleExpireTimer now origin epoch seq = some (q, acts)) :
      Handled p now (.timer (.lsaExpire origin epoch seq)) q acts

theorem handle_cases {p q : ControlPlane} {now : MonoTime} {event : ControlEvent}
    {acts : List ControlAction} (h : p.handle now event = some (q, acts)) :
    Handled p now event q acts := by
  cases event with
  | linkUp link peer cost =>
    simp only [handle, bind, Option.bind_eq_some_iff] at h
    obtain ⟨⟨q', acts'⟩, ho, heq⟩ := h
    cases heq
    exact .linkUp link peer cost ho
  | linkDown link =>
    simp only [handle] at h
    split at h
    · rename_i hunknown
      cases h
      exact .unknownLinkDown link (by simpa using hunknown)
    · rename_i hknown
      exact .linkDown link (by simpa using hknown) h
  | localTopicAdsChanged ads =>
    simp only [handle] at h
    split at h
    · rename_i hkept
      cases h
      exact .keptTopicAds ads (by simpa using hkept)
    · rename_i hchanged
      simp only [Bool.or_eq_true, Bool.not_eq_true', decide_eq_true_eq, not_or,
        Bool.not_eq_false] at hchanged
      exact .topicAds ads hchanged.1 hchanged.2 h
  | frame link f =>
    cases f with
    | lsa m => exact .lsa link m h
    | digest entries =>
      simp only [handle, bind, Option.bind_eq_some_iff] at h
      obtain ⟨acts', hd, heq⟩ := h
      cases heq
      exact .digest link entries hd
    | digestReq origins =>
      cases h
      exact .digestReq link origins
  | timer t =>
    cases t with
    | digest link =>
      simp only [handle, handleDigestTimer, Option.some.injEq, Prod.mk.injEq] at h
      obtain ⟨rfl, h⟩ := h
      split at h
      · rename_i hunknown
        subst h
        exact .deadDigestTimer link (by simpa using hunknown)
      · rename_i hknown
        subst h
        exact .digestTimer link (by simpa using hknown)
    | spfHold generation => exact .spf generation h
    | lsaRefresh epoch seq =>
      simp only [handle, handleRefreshTimer] at h
      split at h
      · rename_i hcurrent
        exact .refresh epoch seq hcurrent h
      · rename_i hstale
        cases h
        exact .staleRefresh epoch seq (Bool.not_eq_true _ ▸ hstale)
    | lsaExpire origin epoch seq => exact .expire origin epoch seq h

theorem receiveLsa_unknownLink {p : ControlPlane} {link : LinkId} (h : link ∉ p.adjacencies)
    (now : MonoTime) (m : LsaMessage) : p.receiveLsa now link m = some (p, []) := by
  have hign : (!p.adjacencies.contains link || !validLsa m.lsa || !p.verifier m) = true := by
    simp [OrdMap.contains_eq_false.mpr h]
  rw [receiveLsa, if_pos hign]

/-- A frame over a link that is no adjacency is ignored. -/
theorem handle_unknownLink {p : ControlPlane} {link : LinkId} (h : link ∉ p.adjacencies)
    (now : MonoTime) (frame : ControlFrame) : p.handle now (.frame link frame) = some (p, []) := by
  have hunknown := OrdMap.contains_eq_false.mpr h
  cases frame with
  | lsa m => exact receiveLsa_unknownLink h now m
  | digest entries => simp [handle, receiveDigest, hunknown]
  | digestReq origins => simp [handle, receiveDigestReq, hunknown]

end ControlPlane
end Control
end MeshBus
