import MeshBus.Runtime.Iteration

/-!
# Runtime.Schedules

No core sets a timer for the past (`handle_punctual`), so no iteration schedules one.
-/

namespace MeshBus

theorem le_satAdd {a : Nat} (b : Nat) (h : a ≤ u64Max) : a ≤ satAdd a b := by
  unfold satAdd
  omega

namespace Control
namespace ControlPlane

/-- Every timer of these actions is due now or later. -/
def Punctual (now : MonoTime) (acts : List ControlAction) : Prop :=
  ∀ x ∈ timers acts, now ≤ x.2

theorem punctual_nil (now : MonoTime) : Punctual now [] := fun _ hx => by cases hx

theorem punctual_of_replies {acts : List ControlAction} (h : Replies acts) (now : MonoTime) :
    Punctual now acts := by
  intro x hx
  rw [h.timers] at hx
  cases hx

theorem Punctual.append {now : MonoTime} {a b : List ControlAction} (ha : Punctual now a)
    (hb : Punctual now b) : Punctual now (a ++ b) := by
  intro x hx
  rw [timers_append] at hx
  exact (List.mem_append.mp hx).elim (ha x) (hb x)

theorem punctual_setTimer {now due : MonoTime} {timer : ControlTimer} (h : now ≤ due) :
    Punctual now [.setTimer timer due] := by
  intro x hx
  rw [List.mem_singleton.mp hx]
  exact h

theorem punctual_digest {p : ControlPlane} {now : MonoTime} {link : LinkId} (h : now ≤ u64Max) :
    Punctual now [p.sendDigest link, nextDigestTimer now link] :=
  show Punctual now [.setTimer (.digest link) (satAdd now digestIntervalMs)] from
    punctual_setTimer (le_satAdd _ h)

theorem markSpfDirty_punctual {p q : ControlPlane} {now : MonoTime} {acts : List ControlAction}
    (hnow : now ≤ u64Max) (h : p.markSpfDirty now = some (q, acts)) : Punctual now acts := by
  simp only [markSpfDirty] at h
  split at h
  · cases h
    exact punctual_nil now
  · split at h
    · cases h
    · cases h
      exact punctual_setTimer (le_satAdd _ hnow)

theorem originateLsa_punctual {p q : ControlPlane} {now : MonoTime} {acts : List ControlAction}
    (hnow : now ≤ u64Max) (h : p.originateLsa now = some (q, acts)) : Punctual now acts := by
  obtain ⟨-, -, spf, hd, rfl⟩ := originateLsa_inv h
  have hflood : Punctual now (.persistSeq (p.mySeq + 1) :: p.flood p.nextMessage none) :=
    punctual_of_replies (flood_replies _ _ _) now
  have hexpire : Punctual now [installTimer p.nextMessage now] :=
    punctual_setTimer (le_satAdd _ hnow)
  have hrefresh : Punctual now [nextRefreshTimer now p.nextMessage.lsa] :=
    punctual_setTimer (le_satAdd _ hnow)
  exact (hflood.append (hexpire.append hrefresh)).append (markSpfDirty_punctual hnow hd)

theorem handle_punctual {p q : ControlPlane} {now : MonoTime} {event : ControlEvent}
    {acts : List ControlAction} (hnow : now ≤ u64Max) (h : p.handle now event = some (q, acts)) :
    Punctual now acts := by
  cases handle_cases h with
  | linkUp link peer cost ho =>
    exact (originateLsa_punctual hnow ho).append (punctual_digest hnow)
  | linkDown link known ho => exact originateLsa_punctual hnow ho
  | topicAds ads valid changed ho => exact originateLsa_punctual hnow ho
  | refresh epoch seq current ho => exact originateLsa_punctual hnow ho
  | unknownLinkDown | keptTopicAds | deadDigestTimer | staleRefresh => exact punctual_nil now
  | lsa link m hr =>
    cases receiveLsa_cases hr with
    | refused _ replies => exact punctual_of_replies replies now
    | stored _ marked =>
      refine ((punctual_of_replies (flood_replies _ _ _) now).append ?_).append
        (markSpfDirty_punctual hnow marked)
      exact punctual_setTimer (le_satAdd _ hnow)
  | digest link entries hd => exact punctual_of_replies (receiveDigest_replies hd) now
  | digestReq link origins => exact punctual_of_replies (receiveDigestReq_replies _ _ _) now
  | digestTimer link known => exact punctual_digest hnow
  | spf generation hspf =>
    cases handleSpfTimer_cases hspf with
    | stale => exact punctual_nil now
    | early pending waiting current early => exact punctual_setTimer early.le
    | ran pending waiting current due routed routes computed =>
      intro x hx
      have hads : timers routed.recomputeTopicAds.2 = [] := by
        rw [recomputeTopicAds]
        split <;> rfl
      rw [timers_append, recomputeRoutes_timers computed, hads] at hx
      cases hx
  | expire origin epoch seq he =>
    cases handleExpireTimer_cases he with
    | stale => exact punctual_nil now
    | early e active current version isActive early => exact punctual_setTimer early.le
    | expired e active current version isActive due marked =>
      exact markSpfDirty_punctual hnow marked

end ControlPlane
end Control

namespace Forward
namespace Forwarder

theorem handle_punctual {f f' : Forwarder} {now : MonoTime} {event : ForwardEvent}
    {acts : List ForwardAction} (hnow : now ≤ u64Max) (h : f.handle now event = some (f', acts)) :
    ∀ x ∈ timers acts, now ≤ x.2 := by
  intro x hx
  have hpark := handle_parkStep h
  rw [← timers_waits] at hx
  generalize waits acts = w at hpark hx
  cases hpark with
  | same => cases hx
  | parked link g waiting free pending next =>
    rw [(mem_timers_setTimer.mp hx).2]
    exact le_satAdd _ hnow
  | retried routes pending next =>
    -- a route update gives up what is overdue and sets no timer
    obtain ⟨action, haction, hset⟩ := List.mem_filterMap.mp hx
    obtain ⟨entry, -, hmem⟩ := List.mem_flatMap.mp haction
    unfold overdue at hmem
    split at hmem
    · obtain ⟨packet, -, rfl⟩ := List.mem_map.mp hmem
      cases hset
    · cases hmem
  | early g batch found wait =>
    rw [(mem_timers_setTimer.mp hx).2]
    exact wait.le
  | expired g batch found late =>
    rw [timers_expired] at hx
    cases hx

theorem run_punctual {now : MonoTime} (hnow : now ≤ u64Max) : ∀ {events : List ForwardEvent}
    {f f' : Forwarder} {acts : List ForwardAction},
    emitAll (fun f e => f.handle now e) f events = some (f', acts) →
    ∀ x ∈ timers acts, now ≤ x.2 := by
  intro events
  induction events with
  | nil =>
    intro f f' acts h x hx
    cases h
    cases hx
  | cons event events ih =>
    intro f f' acts h x hx
    obtain ⟨f1, out, rest, h1, h2, rfl⟩ := emitAll_cons_inv h
    rw [timers, List.filterMap_append, List.mem_append] at hx
    rcases hx with hx | hx
    · exact handle_punctual hnow h1 x hx
    · exact ih h2 x hx

end Forwarder
end Forward
end MeshBus
