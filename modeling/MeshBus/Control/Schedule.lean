import MeshBus.Control.Steps
import MeshBus.Control.Routing

/-!
# Control.Schedule

When the published routes are up to date. Everything that changes a link or an LSA goes through
`mark_spf_dirty`, which leaves a computation pending; a pending computation always has its timer
set.

* `Recomputed p event q acts`: what one step does to the route computation (`handle_recomputed`).
* `Timed`: a control plane with the timers it has set and that were not delivered yet.
* `routes_current_unless_pending`: in every state of every run, the routes and topic ads are those
  of the present links and database, or the timer of the pending computation is on its way.
-/

namespace MeshBus
namespace Control

/-- The timers an action list sets. -/
def timers (actions : List ControlAction) : List (ControlTimer × MonoTime) :=
  actions.filterMap fun
    | .setTimer timer due => some (timer, due)
    | _ => none

theorem mem_timers {actions : List ControlAction} {timer : ControlTimer} {due : MonoTime}
    (h : .setTimer timer due ∈ actions) : (timer, due) ∈ timers actions :=
  List.mem_filterMap.mpr ⟨_, h, rfl⟩

/-- The route tables an action list publishes. -/
def published (actions : List ControlAction) : List RouteTable :=
  actions.filterMap fun
    | .publishRoutes table => some table
    | _ => none

section Actions

variable (a b : List ControlAction) (link : LinkId) (frame : ControlFrame) (timer : ControlTimer)
  (due : MonoTime) (seq : UInt64)

@[simp] theorem published_nil : published [] = [] := rfl
@[simp] theorem published_append : published (a ++ b) = published a ++ published b :=
  List.filterMap_append
@[simp] theorem published_cons_send : published (.send link frame :: a) = published a := rfl
@[simp] theorem published_cons_setTimer : published (.setTimer timer due :: a) = published a := rfl
@[simp] theorem published_cons_persistSeq : published (.persistSeq seq :: a) = published a := rfl

@[simp] theorem timers_nil : timers [] = [] := rfl
@[simp] theorem timers_append : timers (a ++ b) = timers a ++ timers b := List.filterMap_append
@[simp] theorem timers_cons_send : timers (.send link frame :: a) = timers a := rfl
@[simp] theorem timers_cons_setTimer :
    timers (.setTimer timer due :: a) = (timer, due) :: timers a := rfl
@[simp] theorem timers_cons_persistSeq : timers (.persistSeq seq :: a) = timers a := rfl

end Actions

theorem Replies.timers {acts : List ControlAction} (h : Replies acts) : timers acts = [] := by
  rw [Control.timers, List.filterMap_eq_nil_iff]
  intro a ha
  obtain ⟨link, frame, rfl⟩ := h a ha
  rfl

theorem Replies.published {acts : List ControlAction} (h : Replies acts) : published acts = [] := by
  rw [Control.published, List.filterMap_eq_nil_iff]
  intro a ha
  obtain ⟨link, frame, rfl⟩ := h a ha
  rfl

namespace ControlPlane

/-! ## What a step does to the route computation -/

/-- A computation is pending in `q`: one that was pending before and whose timer `event` is not,
or one whose timer `acts` sets. -/
def Armed (p : ControlPlane) (event : ControlEvent) (q : ControlPlane)
    (acts : List ControlAction) : Prop :=
  ∃ pending, q.pendingSpf = some pending ∧
    (p.pendingSpf = some pending ∧ event ≠ .timer (.spfHold pending.generation) ∨
      .setTimer (.spfHold pending.generation) pending.due ∈ acts)

/-- The published routes and topic ads are those of the links and the database. -/
def Current (p : ControlPlane) : Prop :=
  p.shortestPaths = some p.routes.routes ∧ p.publishedTopicAds = p.discovered

/-- The three ways a step treats the route computation. -/
inductive Recomputed (p : ControlPlane) (event : ControlEvent) :
    ControlPlane → List ControlAction → Prop
  | untouched {acts} (other : ∀ pending, p.pendingSpf = some pending →
      event ≠ .timer (.spfHold pending.generation)) (silent : published acts = []) :
      Recomputed p event p acts
  | armed {q acts} (h : Armed p event q acts) (silent : published acts = []) :
      Recomputed p event q acts
  | computed {q acts} (idle : q.pendingSpf = none) (current : Current q)
      (tables : ∀ table ∈ published acts, table = q.routes) : Recomputed p event q acts

theorem markSpfDirty_armed {p q : ControlPlane} {now : MonoTime} {acts : List ControlAction}
    (event : ControlEvent) (hevent : ∀ g, event ≠ .timer (.spfHold g))
    (h : p.markSpfDirty now = some (q, acts)) : Armed p event q acts ∧ published acts = [] := by
  simp only [markSpfDirty] at h
  split at h
  · rename_i hpending
    obtain ⟨pending, hp⟩ := Option.isSome_iff_exists.mp (Bool.and_eq_true_iff.mp hpending).1
    cases h
    exact ⟨⟨pending, hp, .inl ⟨hp, hevent _⟩⟩, rfl⟩
  · split at h
    · cases h
    · cases h
      exact ⟨⟨_, rfl, .inr List.mem_cons_self⟩, rfl⟩

theorem Armed.mono {p q : ControlPlane} {event : ControlEvent} {acts all : List ControlAction}
    (h : Armed p event q acts) (hsub : acts ⊆ all) : Armed p event q all := by
  obtain ⟨pending, hq, hset⟩ := h
  exact ⟨pending, hq, hset.imp_right fun hmem => hsub hmem⟩

theorem originateLsa_armed {p q : ControlPlane} {now : MonoTime} {acts : List ControlAction}
    (event : ControlEvent) (hevent : ∀ g, event ≠ .timer (.spfHold g))
    (h : p.originateLsa now = some (q, acts)) : Armed p event q acts ∧ published acts = [] := by
  obtain ⟨-, -, spf, hd, rfl⟩ := originateLsa_inv h
  obtain ⟨harmed, hsilent⟩ := markSpfDirty_armed event hevent hd
  refine ⟨Armed.mono harmed (List.subset_append_right _ _), ?_⟩
  simp [(flood_replies _ _ _).published, hsilent, installTimer, nextRefreshTimer]

theorem receiveLsa_armed {p q : ControlPlane} {now : MonoTime} {incoming : LinkId} {m : LsaMessage}
    {acts : List ControlAction} (event : ControlEvent) (hevent : ∀ g, event ≠ .timer (.spfHold g))
    (h : p.receiveLsa now incoming m = some (q, acts)) :
    (q = p ∨ Armed p event q acts) ∧ published acts = [] := by
  cases receiveLsa_cases h with
  | refused _ replies => exact ⟨.inl rfl, replies.published⟩
  | stored _ marked =>
    obtain ⟨harmed, hsilent⟩ := markSpfDirty_armed event hevent marked
    refine ⟨.inr (Armed.mono harmed (List.subset_append_right _ _)), ?_⟩
    simp [(flood_replies _ _ _).published, hsilent, installTimer]

theorem handleExpireTimer_armed {p q : ControlPlane} {now : MonoTime} {origin : NodeId}
    {epoch : UInt32} {seq : UInt64} {acts : List ControlAction} (event : ControlEvent)
    (hevent : ∀ g, event ≠ .timer (.spfHold g))
    (h : p.handleExpireTimer now origin epoch seq = some (q, acts)) :
    (q = p ∨ Armed p event q acts) ∧ published acts = [] := by
  cases handleExpireTimer_cases h with
  | stale | early => exact ⟨.inl rfl, rfl⟩
  | expired e active current version isActive due marked =>
    obtain ⟨harmed, hsilent⟩ := markSpfDirty_armed event hevent marked
    exact ⟨.inr harmed, hsilent⟩

/-- `recompute_routes` leaves the routes of the links and the database it started from. -/
theorem recomputeRoutes_current {p q : ControlPlane} {acts : List ControlAction}
    (h : p.recomputeRoutes = some (q, acts)) :
    p.shortestPaths = some q.routes.routes ∧ q = { p with routes := q.routes } ∧
      ∀ table ∈ published acts, table = q.routes := by
  simp only [recomputeRoutes, bind, Option.bind_eq_some_iff] at h
  obtain ⟨routes, hr, h⟩ := h
  split at h
  · rename_i heq
    cases h
    exact ⟨hr.trans (congrArg some heq), rfl, by simp⟩
  · split at h
    · cases h
    · cases h
      exact ⟨hr, rfl, by simp [published]⟩

theorem recomputeTopicAds_current (p : ControlPlane) :
    p.recomputeTopicAds.1 = { p with publishedTopicAds := p.discovered } ∧
      published p.recomputeTopicAds.2 = [] := by
  rw [recomputeTopicAds]
  split
  · rename_i heq
    exact ⟨by rw [heq], rfl⟩
  · exact ⟨rfl, rfl⟩

theorem handleSpfTimer_recomputed {p q : ControlPlane} {now : MonoTime} {generation : Nat}
    {acts : List ControlAction} (h : p.handleSpfTimer now generation = some (q, acts)) :
    Recomputed p (.timer (.spfHold generation)) q acts := by
  cases handleSpfTimer_cases h with
  | stale other =>
    refine .untouched (fun pending hp heq => other pending hp ?_) rfl
    cases heq
    rfl
  | early pending waiting current _ =>
    refine .armed ⟨pending, waiting, .inr ?_⟩ rfl
    rw [current]
    exact List.mem_singleton_self _
  | ran pending waiting current due routed routes computed =>
    obtain ⟨hpaths, hrouted, htables⟩ := recomputeRoutes_current computed
    obtain ⟨hads, hsilent⟩ := recomputeTopicAds_current routed
    rw [hads, hrouted]
    refine .computed rfl ⟨hpaths, rfl⟩ ?_
    rw [← hrouted, published_append, hsilent, List.append_nil]
    exact htables

theorem handle_recomputed {p q : ControlPlane} {now : MonoTime} {event : ControlEvent}
    {acts : List ControlAction} (h : p.handle now event = some (q, acts)) :
    Recomputed p event q acts := by
  have kept : ∀ {event : ControlEvent} {acts : List ControlAction},
      (∀ g, event ≠ .timer (.spfHold g)) → published acts = [] → Recomputed p event p acts :=
    fun hevent hsilent => .untouched (fun pending _ => hevent pending.generation) hsilent
  cases handle_cases h with
  | linkUp link peer cost ho =>
    obtain ⟨harmed, hsilent⟩ := originateLsa_armed (.linkUp link peer cost) (by simp) ho
    refine .armed (Armed.mono harmed (List.subset_append_left _ _)) ?_
    rw [published_append, hsilent]
    rfl
  | linkDown link known ho =>
    obtain ⟨harmed, hsilent⟩ := originateLsa_armed (.linkDown link) (by simp) ho
    exact .armed harmed hsilent
  | topicAds ads valid changed ho =>
    obtain ⟨harmed, hsilent⟩ := originateLsa_armed (.localTopicAdsChanged ads) (by simp) ho
    exact .armed harmed hsilent
  | refresh epoch seq current ho =>
    obtain ⟨harmed, hsilent⟩ := originateLsa_armed (.timer (.lsaRefresh epoch seq)) (by simp) ho
    exact .armed harmed hsilent
  | unknownLinkDown | keptTopicAds | deadDigestTimer | digestTimer | staleRefresh =>
    exact kept (by simp) rfl
  | lsa link m hr =>
    obtain ⟨rfl | harmed, hsilent⟩ := receiveLsa_armed (.frame link (.lsa m)) (by simp) hr
    · exact kept (by simp) hsilent
    · exact .armed harmed hsilent
  | digest link entries hd => exact kept (by simp) (receiveDigest_replies hd |>.published)
  | digestReq link origins => exact kept (by simp) (receiveDigestReq_replies _ _ _ |>.published)
  | spf generation hs => exact handleSpfTimer_recomputed hs
  | expire origin epoch seq he =>
    obtain ⟨rfl | harmed, hsilent⟩ :=
      handleExpireTimer_armed (.timer (.lsaExpire origin epoch seq)) (by simp) he
    · exact kept (by simp) hsilent
    · exact .armed harmed hsilent

/-- The next hops of a published table are local links. -/
theorem nextHop_mem_of_shortestPaths {p : ControlPlane} {routes : OrdMap NodeId Route}
    (h : p.shortestPaths = some routes) {d : NodeId} {r : Route} (hr : routes[d]? = some r) :
    r.nextHop ∈ p.adjacencies := by
  obtain ⟨st, hloop, -, -⟩ := p.loop_ends
  rw [shortestPaths_eq hloop] at h
  rw [get_collectM h d] at hr
  simp only [Option.bind_eq_some_iff, routeTo] at hr
  obtain ⟨cost, -, hr⟩ := hr
  split at hr
  · cases hr
  · cases hpeer : st.firstPeer[d]? with
    | none => simp [hpeer] at hr
    | some peer =>
      cases hbest : p.bestLinkTo peer with
      | none => simp [hpeer, hbest] at hr
      | some link =>
        cases hhops : st.pathHops[d]? with
        | none => simp [hpeer, hbest, hhops] at hr
        | some hops =>
          simp only [hpeer, hbest, hhops, bind, Option.bind_some, Option.join_some,
            Option.some.injEq] at hr
          subst hr
          obtain ⟨adj, hadj, -⟩ := bestLinkTo_some hbest
          exact OrdMap.mem_iff_get.mpr ⟨adj, hadj⟩

/-- What a step publishes names links of the state it ends in. -/
theorem handle_publishes {p q : ControlPlane} {now : MonoTime} {event : ControlEvent}
    {acts : List ControlAction} (h : p.handle now event = some (q, acts)) {table : RouteTable}
    (htable : table ∈ published acts) {d : NodeId} {r : Route} (hr : table.get d = some r) :
    r.nextHop ∈ q.adjacencies := by
  cases handle_recomputed h with
  | untouched other silent => simp [silent] at htable
  | armed harmed silent => simp [silent] at htable
  | computed idle current tables =>
    rw [tables table htable] at hr
    exact nextHop_mem_of_shortestPaths current.1 hr

end ControlPlane

/-! ## Runs with timers -/

/-- A control plane and the timers it has set that are not delivered yet. -/
structure Timed where
  plane : ControlPlane
  waiting : List (ControlTimer × MonoTime)

/-- `fire` delivers a timer that waits, at any time; every other event is `event`, among them a
timer that no `SetTimer` has asked for. -/
inductive TimedInput where
  | event (event : ControlEvent)
  | fire (timer : ControlTimer) (due : MonoTime)

/-- The event that the control plane sees. -/
def TimedInput.handled : TimedInput → ControlEvent
  | .event other => other
  | .fire timer _ => .timer timer

namespace Timed

instance : LawfulBEq (ControlTimer × MonoTime) := inferInstance

/-- A delivered timer waits no longer: a `SetTimer` is delivered at most once. -/
def step (s : Timed) : MonoTime × TimedInput → Option Timed
  | (now, .event event) => do
    let (plane, acts) ← s.plane.handle now event
    some ⟨plane, s.waiting ++ timers acts⟩
  | (now, .fire timer due) =>
    if (timer, due) ∈ s.waiting then do
      let (plane, acts) ← s.plane.handle now (.timer timer)
      some ⟨plane, s.waiting.erase (timer, due) ++ timers acts⟩
    else none

/-- What a run keeps: without a pending computation the routes are current, and a pending one has
its timer waiting. -/
structure Inv (s : Timed) : Prop where
  current : s.plane.pendingSpf = none → s.plane.Current
  timer : ∀ pending, s.plane.pendingSpf = some pending →
    (.spfHold pending.generation, pending.due) ∈ s.waiting

/-- `kept` are the waiting timers that `event` is not the delivery of. -/
theorem Inv.handled {s : Timed} (hs : s.Inv) {event : ControlEvent} {q : ControlPlane}
    {acts : List ControlAction} {kept : List (ControlTimer × MonoTime)}
    (hkept : ∀ t due, (t, due) ∈ s.waiting → event ≠ .timer t → (t, due) ∈ kept)
    (h : s.plane.Recomputed event q acts) : Inv ⟨q, kept ++ timers acts⟩ := by
  cases h with
  | untouched other silent =>
    refine ⟨hs.current, fun pending hp => List.mem_append_left _ ?_⟩
    exact hkept _ _ (hs.timer pending hp) (other pending hp)
  | armed harmed silent =>
    obtain ⟨pending, hq, hset⟩ := harmed
    refine ⟨fun hnone => by simp [hq] at hnone, fun pending' hp => ?_⟩
    have heq : pending = pending' := Option.some.inj (hq.symm.trans hp)
    subst heq
    rcases hset with ⟨hbefore, hother⟩ | hset
    · exact List.mem_append_left _ (hkept _ _ (hs.timer pending hbefore) hother)
    · exact List.mem_append_right _ (mem_timers hset)
  | computed idle current tables =>
    exact ⟨fun _ => current, fun pending hp => by simp [idle] at hp⟩

/-- A step handles one event; the timers that wait after it are those the event did not deliver and
those it has set. -/
theorem step_inv {s s' : Timed} {input : MonoTime × TimedInput} (h : s.step input = some s') :
    ∃ kept q acts, kept ⊆ s.waiting ∧
      (∀ t due, (t, due) ∈ s.waiting → input.2.handled ≠ .timer t → (t, due) ∈ kept) ∧
      s.plane.handle input.1 input.2.handled = some (q, acts) ∧ s' = ⟨q, kept ++ timers acts⟩ := by
  obtain ⟨now, event | ⟨timer, due⟩⟩ := input
  · simp only [Timed.step, bind, Option.bind_eq_some_iff] at h
    obtain ⟨⟨q, acts⟩, hq, heq⟩ := h
    cases heq
    exact ⟨s.waiting, q, acts, List.Subset.refl _, fun t due hmem _ => hmem, hq, rfl⟩
  · simp only [Timed.step] at h
    split at h
    · simp only [bind, Option.bind_eq_some_iff] at h
      obtain ⟨⟨q, acts⟩, hq, heq⟩ := h
      cases heq
      refine ⟨s.waiting.erase (timer, due), q, acts, List.erase_subset, ?_, hq, rfl⟩
      intro t d hmem hne
      refine (List.mem_erase_of_ne ?_).mpr hmem
      intro heq
      cases heq
      exact hne rfl
    · cases h

theorem Inv.step {s s' : Timed} {input : MonoTime × TimedInput} (hs : s.Inv)
    (h : s.step input = some s') : s'.Inv := by
  obtain ⟨kept, q, acts, -, hkept, hq, rfl⟩ := step_inv h
  exact hs.handled hkept (ControlPlane.handle_recomputed hq)

end Timed

namespace ControlPlane

/-- With no LSA the computation reaches nobody but the node itself. -/
theorem shortestPaths_of_empty {p : ControlPlane} (h : p.lsdb = ∅) : p.shortestPaths = some ∅ := by
  obtain ⟨routes, hroutes⟩ := shortestPaths_total p
  have hsize : p.lsdb.size ≤ maxLsdbEntries := by
    rw [h]
    exact Nat.zero_le _
  rw [hroutes]
  refine congrArg some (Std.ExtTreeMap.ext_getElem? fun d => ?_)
  cases hd : routes[d]? with
  | none => simp
  | some r =>
    obtain ⟨-, -, peer, c, k, -, ⟨lsa, cost, hlsa, -⟩, -⟩ := (routes_spec hroutes hsize d).1 r hd
    simp [ControlPlane.lsa, h] at hlsa

/-- The topic ads of all active LSAs with the nodes they come from. -/
def activeTopicAds (p : ControlPlane) : List DiscoveredTopicAd :=
  p.lsdb.toList.flatMap fun e =>
    match e.2.state with
    | .active active => active.message.lsa.topics.map fun ad => ⟨e.1, ad⟩
    | .tombstone => []

theorem discovered_eq (p : ControlPlane) :
    p.discovered = p.activeTopicAds.insertionSort (· ≤ ·) := by
  rw [discovered, activeTopicAds]
  congr 2
  funext e
  rw [LsdbEntry.active]
  cases e.2.state <;> rfl

theorem discovered_of_empty {p : ControlPlane} (h : p.lsdb = ∅) : p.discovered = [] := by
  have hnil : p.activeTopicAds = [] := by
    rw [activeTopicAds, h, Std.ExtTreeMap.toList_eq_nil_iff.mpr rfl]
    rfl
  rw [discovered_eq, hnil]
  rfl

end ControlPlane

namespace Timed

/-- A node as it starts, with no timer set. -/
def start (me : NodeId) (epoch : UInt32) (lastSeq : UInt64) (signer : Lsa → LsaMessage)
    (verifier : LsaMessage → Bool) : Timed where
  plane := .withAuthAndSeq me epoch lastSeq signer verifier
  waiting := []

theorem inv_start (me : NodeId) (epoch : UInt32) (lastSeq : UInt64) (signer : Lsa → LsaMessage)
    (verifier : LsaMessage → Bool) : Inv (start me epoch lastSeq signer verifier) where
  current := fun _ => ⟨ControlPlane.shortestPaths_of_empty rfl,
    (ControlPlane.discovered_of_empty rfl).symm⟩
  timer := fun pending hp => by cases hp

/-- In every state of every run: with no computation pending, the published routes are those
`shortest_paths` gives for the present links and database and the published topic ads are those of
the active LSAs, sorted; with one pending, its timer is set and not delivered yet. -/
theorem routes_current_unless_pending {me : NodeId} {epoch : UInt32} {lastSeq : UInt64}
    {signer : Lsa → LsaMessage} {verifier : LsaMessage → Bool}
    {inputs : List (MonoTime × TimedInput)} {s : Timed}
    (h : inputs.foldlM step (start me epoch lastSeq signer verifier) = some s) :
    (s.plane.pendingSpf = none →
      s.plane.shortestPaths = some s.plane.routes.routes ∧
        s.plane.publishedTopicAds.Perm s.plane.activeTopicAds ∧
        s.plane.publishedTopicAds.Pairwise (· ≤ ·)) ∧
    ∀ pending, s.plane.pendingSpf = some pending →
      (.spfHold pending.generation, pending.due) ∈ s.waiting := by
  have hinv : s.Inv := foldlM_inv (fun _ _ _ hs hstep => hs.step hstep) (inv_start ..) h
  refine ⟨fun hidle => ?_, hinv.timer⟩
  obtain ⟨hroutes, hads⟩ := hinv.current hidle
  rw [hads, ControlPlane.discovered_eq]
  exact ⟨hroutes, List.perm_insertionSort _ _, List.pairwise_insertionSort _ _⟩

/-- The LSA of a neighbour with one subscription. -/
def neighbourLsa : Lsa where
  origin := .ofByte 2
  epoch := 1
  seq := 1
  ttlSec := 300
  adjacencies := [⟨.ofByte 1, unitCost⟩]
  topics := [{ topic := [116], partition := [], roles := .subscribe, headSeq := 0, tailSeq := 0 }]

def neighbourInputs : List (MonoTime × TimedInput) :=
  [(0, .event (.linkUp 7 (.ofByte 2) unitCost)),
    (10, .event (.frame 7 (.lsa (unsecuredSign neighbourLsa)))), (90, .fire (.spfHold 1) 100),
    (100, .fire (.spfHold 1) 100)]

/-- A neighbour comes up and announces itself; the timer is delivered once too early and then
again. -/
theorem routes_current_unless_pending_neighbour :
    ∃ s,
      neighbourInputs.foldlM step (start (.ofByte 1) 1 0 unsecuredSign unsecuredVerify) = some s ∧
      s.plane.pendingSpf = none ∧ (.ofByte 2) ∈ s.plane.routes.routes ∧
      s.plane.publishedTopicAds ≠ [] ∧ s.plane.shortestPaths = some s.plane.routes.routes ∧
      s.plane.publishedTopicAds.Perm s.plane.activeTopicAds := by
  have hfacts : (neighbourInputs.foldlM step
      (start (.ofByte 1) 1 0 unsecuredSign unsecuredVerify)).map (fun s =>
        decide (s.plane.pendingSpf = none ∧ (.ofByte 2) ∈ s.plane.routes.routes ∧
          s.plane.publishedTopicAds ≠ [])) = some true := by
    decide +kernel
  obtain ⟨s, hrun, hs⟩ := Option.map_eq_some_iff.mp hfacts
  obtain ⟨hidle, hroute, hads⟩ := of_decide_eq_true hs
  obtain ⟨hpaths, hperm, -⟩ := (routes_current_unless_pending hrun).1 hidle
  exact ⟨s, hrun, hidle, hroute, hads, hpaths, hperm⟩

end Timed
end Control
end MeshBus
