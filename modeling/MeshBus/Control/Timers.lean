import MeshBus.Control.Schedule
import MeshBus.Control.Regular

/-!
# Control.Timers

No timer of the control plane is lost. Every active entry waits for its expiry, the node's own LSA
for its refresh and every link for its next digest; a timer whose version or generation was
superseded changes nothing.

* `Rearms p event q acts`: what one step owes its timers. What is watched after the step was watched
  before and `event` was not its timer, or `acts` sets the timer (`handle_rearms`).
* `no_timer_lost`: the same over whole runs, whenever timers are delivered.
-/

namespace MeshBus
namespace Control

/-- The timer that an entry waits for to expire. -/
def expireTimer (o : NodeId) (e : LsdbEntry) : ControlTimer :=
  .lsaExpire o e.version.epoch e.version.seq

/-- The timer that the node's own entry waits for to be refreshed. -/
def refreshTimer (e : LsdbEntry) : ControlTimer := .lsaRefresh e.version.epoch e.version.seq

namespace ControlPlane

/-- What one step owes its timers. -/
structure Rearms (p : ControlPlane) (event : ControlEvent) (q : ControlPlane)
    (acts : List ControlAction) : Prop where
  expire : ∀ (o : NodeId) (e : LsdbEntry) (active : ActiveLsa), q.lsdb[o]? = some e →
    e.active = some active →
    (p.lsdb[o]? = some e ∧ event ≠ .timer (expireTimer o e)) ∨
      .setTimer (expireTimer o e) active.expiresAt ∈ acts
  refresh : ∀ (e : LsdbEntry) (active : ActiveLsa), q.lsdb[q.me]? = some e →
    e.active = some active →
    (p.lsdb[p.me]? = some e ∧ event ≠ .timer (refreshTimer e)) ∨
      ∃ due, .setTimer (refreshTimer e) due ∈ acts
  digest : ∀ link, link ∈ q.adjacencies →
    (link ∈ p.adjacencies ∧ event ≠ .timer (.digest link)) ∨
      ∃ due, .setTimer (.digest link) due ∈ acts

/-- The event delivers none of the timers in question. -/
def NoTimer : ControlEvent → Prop
  | .timer (.spfHold _) => True
  | .timer _ => False
  | _ => True

theorem Rearms.kept {p q : ControlPlane} {event : ControlEvent} {acts : List ControlAction}
    (h : SameButSpf p q) (hevent : NoTimer event) : Rearms p event q acts where
  expire := by
    intro o e active he _
    refine .inl ⟨h.lsdb ▸ he, ?_⟩
    rintro rfl
    exact hevent
  refresh := by
    intro e active he _
    rw [h.lsdb, h.me] at he
    refine .inl ⟨he, ?_⟩
    rintro rfl
    exact hevent
  digest := by
    intro link hlink
    refine .inl ⟨h.adjacencies ▸ hlink, ?_⟩
    rintro rfl
    exact hevent

/-! ## Originations -/

/-- An origination sets both timers of the LSA it stores. -/
theorem originateLsa_timers {p q : ControlPlane} {now : MonoTime} {acts : List ControlAction}
    (h : p.originateLsa now = some (q, acts)) :
    installTimer p.nextMessage now ∈ acts ∧ nextRefreshTimer now p.nextMessage.lsa ∈ acts := by
  obtain ⟨-, -, spf, -, rfl⟩ := originateLsa_inv h
  simp

/-- `extra` sets the digest timers of the links that are new. -/
theorem originateLsa_rearms {p mid q : ControlPlane} {now : MonoTime} {event : ControlEvent}
    {acts extra : List ControlAction} (hs : ∀ lsa, (p.signer lsa).lsa = lsa)
    (ho : mid.originateLsa now = some (q, acts)) (hprep : Prepared p mid)
    (hexpire : ∀ o e, event ≠ .timer (expireTimer o e))
    (hdigest : ∀ link, event ≠ .timer (.digest link))
    (hlinks : ∀ link, link ∈ mid.adjacencies → link ∈ p.adjacencies ∨
      ∃ due, .setTimer (.digest link) due ∈ extra) : Rearms p event q (acts ++ extra) := by
  have hO := originateLsa_spec ho
  obtain ⟨hexpiry, hrefresh⟩ := originateLsa_timers ho
  have hlsdb : q.lsdb = p.lsdb.insert mid.nextMessage.lsa.origin
      (activeEntry mid.nextMessage now) := by
    rw [hO.same.lsdb, originated, hprep.lsdb]
  have hme : mid.nextMessage.lsa.origin = q.me := by
    rw [hO.same.me, nextMessage, hprep.signer, hs]
    rfl
  refine ⟨?_, ?_, ?_⟩
  · intro o e active he hactive
    rw [hlsdb, OrdMap.get_insert] at he
    split at he
    · rename_i horigin
      subst horigin
      cases he
      cases hactive
      exact .inr (List.mem_append_left _ hexpiry)
    · exact .inl ⟨he, hexpire o e⟩
  · intro e active he _
    rw [hlsdb, OrdMap.get_insert, if_pos hme] at he
    cases he
    exact .inr ⟨_, List.mem_append_left _ hrefresh⟩
  · intro link hlink
    rw [hO.same.adjacencies] at hlink
    rcases hlinks link hlink with hold | ⟨due, hset⟩
    · exact .inl ⟨hold, hdigest link⟩
    · exact .inr ⟨due, List.mem_append_right _ hset⟩

/-! ## Other events -/

theorem receiveLsa_rearms {p q : ControlPlane} {now : MonoTime} {link : LinkId} {m : LsaMessage}
    {acts : List ControlAction} (h : p.receiveLsa now link m = some (q, acts)) :
    Rearms p (.frame link (.lsa m)) q acts := by
  cases receiveLsa_cases h with
  | refused _ _ => exact .kept (.refl p) trivial
  | stored haccepts marked =>
    have hforeign : m.lsa.origin ≠ p.me := by
      intro heq
      simp [accepts, heq] at haccepts
    have hsame := (markSpfDirty_spec marked).1
    refine ⟨?_, ?_, ?_⟩
    · intro o e active he hactive
      rw [hsame.lsdb, OrdMap.get_insert] at he
      split at he
      · rename_i horigin
        subst horigin
        cases he
        cases hactive
        exact .inr (by simp [installTimer, expireTimer, activeEntry, lsaVersion])
      · exact .inl ⟨he, by simp⟩
    · intro e active he _
      rw [hsame.lsdb, hsame.me, OrdMap.get_insert, if_neg hforeign] at he
      exact .inl ⟨he, by simp⟩
    · intro l hl
      exact .inl ⟨hsame.adjacencies ▸ hl, by simp⟩

/-- An expiry timer that is not the one of the entry leaves the entry alone. -/
theorem handleExpireTimer_rearms {p q : ControlPlane} {now : MonoTime} {origin : NodeId}
    {epoch : UInt32} {seq : UInt64} {acts : List ControlAction}
    (h : p.handleExpireTimer now origin epoch seq = some (q, acts)) :
    Rearms p (.timer (.lsaExpire origin epoch seq)) q acts := by
  -- what the timer is not about stays watched
  have keep : ∀ {q : ControlPlane} {acts : List ControlAction}, q.adjacencies = p.adjacencies →
      q.me = p.me → (∀ (o : NodeId) (e : LsdbEntry) (active : ActiveLsa), q.lsdb[o]? = some e →
        e.active = some active → p.lsdb[o]? = some e ∧
          (expireTimer o e = .lsaExpire origin epoch seq →
            .setTimer (expireTimer o e) active.expiresAt ∈ acts)) →
      Rearms p (.timer (.lsaExpire origin epoch seq)) q acts := by
    intro q acts hadj hme hall
    refine ⟨?_, ?_, ?_⟩
    · intro o e active he hactive
      obtain ⟨hold, hset⟩ := hall o e active he hactive
      by_cases heq : expireTimer o e = .lsaExpire origin epoch seq
      · exact .inr (hset heq)
      · refine .inl ⟨hold, ?_⟩
        intro hevent
        exact heq (ControlEvent.timer.inj hevent).symm
    · intro e active he hactive
      exact .inl ⟨hme ▸ (hall q.me e active he hactive).1, by simp [refreshTimer]⟩
    · intro link hlink
      exact .inl ⟨hadj ▸ hlink, by simp⟩
  cases handleExpireTimer_cases h with
  | stale other =>
    refine keep rfl rfl fun o e active he hactive => ⟨he, ?_⟩
    intro heq
    cases heq
    rw [other e he rfl] at hactive
    cases hactive
  | early e0 active0 current version isActive _ =>
    refine keep rfl rfl fun o e active he hactive => ⟨he, ?_⟩
    intro heq
    rw [heq]
    cases heq
    cases current.symm.trans he
    cases isActive.symm.trans hactive
    exact List.mem_singleton_self _
  | expired e0 active0 current version isActive due marked =>
    have hsame := (markSpfDirty_spec marked).1
    refine keep hsame.adjacencies hsame.me fun o e active he hactive => ?_
    rw [hsame.lsdb, OrdMap.get_insert] at he
    split at he
    · cases he
      cases hactive
    · rename_i hother
      refine ⟨he, ?_⟩
      intro heq
      cases heq
      exact absurd rfl hother

/-- A refresh timer that is not the one of the node's own active entry changes nothing. -/
theorem handleRefreshTimer_stale {p : ControlPlane} {epoch : UInt32} {seq : UInt64}
    (h : ∀ e : LsdbEntry, p.lsdb[p.me]? = some e → e.version ≠ ⟨epoch, seq⟩) (now : MonoTime) :
    p.handleRefreshTimer now epoch seq = some (p, []) := by
  simp only [handleRefreshTimer]
  split
  · rename_i hcurrent
    obtain ⟨e, he, hv⟩ := (Option.any_eq_true _ _).mp hcurrent
    rw [Bool.and_eq_true, decide_eq_true_eq] at hv
    exact absurd hv.1 (h e he)
  · rfl

theorem handle_rearms {p q : ControlPlane} {now : MonoTime} {event : ControlEvent}
    {acts : List ControlAction} (hs : ∀ lsa, (p.signer lsa).lsa = lsa)
    (h : p.handle now event = some (q, acts)) : Rearms p event q acts := by
  -- an origination with no new link
  have plain : ∀ {mid q : ControlPlane} {acts : List ControlAction} {event : ControlEvent},
      mid.originateLsa now = some (q, acts) → Prepared p mid →
      (∀ o e, event ≠ .timer (expireTimer o e)) → (∀ link, event ≠ .timer (.digest link)) →
      (∀ link, link ∈ mid.adjacencies → link ∈ p.adjacencies) → Rearms p event q acts := by
    intro mid q acts event ho hprep hexpire hdigest hlinks
    rw [← List.append_nil acts]
    exact originateLsa_rearms hs ho hprep hexpire hdigest fun l hl => .inl (hlinks l hl)
  cases handle_cases h with
  | linkUp link peer cost ho =>
    refine originateLsa_rearms hs ho ⟨rfl, rfl, rfl, rfl, rfl, rfl⟩ (by simp) (by simp) ?_
    intro l hl
    rcases (OrdMap.mem_insert ..).mp hl with rfl | hl
    · exact .inr ⟨_, List.mem_cons_of_mem _ (List.mem_singleton_self _)⟩
    · exact .inl hl
  | linkDown link known ho =>
    exact plain ho ⟨rfl, rfl, rfl, rfl, rfl, rfl⟩ (by simp) (by simp)
      fun l hl => ((OrdMap.mem_erase ..).mp hl).2
  | topicAds ads valid changed ho =>
    exact plain ho ⟨rfl, rfl, rfl, rfl, rfl, rfl⟩ (by simp) (by simp) fun l hl => hl
  | refresh epoch seq current ho =>
    exact plain ho ⟨rfl, rfl, rfl, rfl, rfl, rfl⟩ (by simp [expireTimer]) (by simp)
      fun l hl => hl
  | unknownLinkDown | keptTopicAds | digest | digestReq => exact .kept (.refl p) trivial
  | lsa link m hr => exact receiveLsa_rearms hr
  | spf generation hs => exact .kept (handleSpfTimer_spec hs).1 trivial
  | expire origin epoch seq he => exact handleExpireTimer_rearms he
  | digestTimer link known =>
    refine ⟨fun o e active he _ => .inl ⟨he, by simp [expireTimer]⟩,
      fun e active he _ => .inl ⟨he, by simp [refreshTimer]⟩, ?_⟩
    intro l hl
    by_cases heq : l = link
    · subst heq
      exact .inr ⟨satAdd now digestIntervalMs, by simp [nextDigestTimer]⟩
    · refine .inl ⟨hl, ?_⟩
      intro hevent
      cases hevent
      exact heq rfl
  | deadDigestTimer link unknown =>
    refine ⟨fun o e active he _ => .inl ⟨he, by simp [expireTimer]⟩,
      fun e active he _ => .inl ⟨he, by simp [refreshTimer]⟩, ?_⟩
    intro l hl
    refine .inl ⟨hl, ?_⟩
    intro hevent
    cases hevent
    exact unknown hl
  | staleRefresh epoch seq stale =>
    refine ⟨fun o e active he _ => .inl ⟨he, by simp [expireTimer]⟩, ?_,
      fun l hl => .inl ⟨hl, by simp⟩⟩
    intro e active he hactive
    refine .inl ⟨he, ?_⟩
    intro hevent
    cases hevent
    simp [ownCurrent, he, hactive] at stale

end ControlPlane

namespace Timed

/-- Everything that waits for a timer has it set. -/
structure Watching (s : Timed) : Prop where
  signs : ∀ lsa, (s.plane.signer lsa).lsa = lsa
  expire : ∀ (o : NodeId) (e : LsdbEntry) (active : ActiveLsa), s.plane.lsdb[o]? = some e →
    e.active = some active → (expireTimer o e, active.expiresAt) ∈ s.waiting
  refresh : ∀ (e : LsdbEntry) (active : ActiveLsa), s.plane.lsdb[s.plane.me]? = some e →
    e.active = some active → ∃ due, (refreshTimer e, due) ∈ s.waiting
  digest : ∀ link, link ∈ s.plane.adjacencies → ∃ due, (.digest link, due) ∈ s.waiting

/-- `kept` are the waiting timers that `event` is not the delivery of. -/
theorem Watching.handled {s : Timed} (hs : s.Watching) {now : MonoTime} {event : ControlEvent}
    {q : ControlPlane} {acts : List ControlAction} {kept : List (ControlTimer × MonoTime)}
    (hkept : ∀ t due, (t, due) ∈ s.waiting → event ≠ .timer t → (t, due) ∈ kept)
    (h : s.plane.handle now event = some (q, acts)) : Watching ⟨q, kept ++ timers acts⟩ := by
  have hrearms := ControlPlane.handle_rearms hs.signs h
  have hsigner := (ControlPlane.handle_spec h).effect.same.signer
  refine ⟨by rw [hsigner]; exact hs.signs, ?_, ?_, ?_⟩
  · intro o e active he hactive
    rcases hrearms.expire o e active he hactive with ⟨hold, hother⟩ | hset
    · exact List.mem_append_left _ (hkept _ _ (hs.expire o e active hold hactive) hother)
    · exact List.mem_append_right _ (mem_timers hset)
  · intro e active he hactive
    rcases hrearms.refresh e active he hactive with ⟨hold, hother⟩ | ⟨due, hset⟩
    · obtain ⟨due, hdue⟩ := hs.refresh e active hold hactive
      exact ⟨due, List.mem_append_left _ (hkept _ _ hdue hother)⟩
    · exact ⟨due, List.mem_append_right _ (mem_timers hset)⟩
  · intro link hlink
    rcases hrearms.digest link hlink with ⟨hold, hother⟩ | ⟨due, hset⟩
    · obtain ⟨due, hdue⟩ := hs.digest link hold
      exact ⟨due, List.mem_append_left _ (hkept _ _ hdue hother)⟩
    · exact ⟨due, List.mem_append_right _ (mem_timers hset)⟩

theorem Watching.step {s s' : Timed} {input : MonoTime × TimedInput} (hs : s.Watching)
    (h : s.step input = some s') : s'.Watching := by
  obtain ⟨kept, q, acts, -, hkept, hq, rfl⟩ := step_inv h
  exact hs.handled hkept hq

theorem watching_start {signer : Lsa → LsaMessage} (hsigner : ∀ lsa, (signer lsa).lsa = lsa)
    (me : NodeId) (epoch : UInt32) (lastSeq : UInt64) (verifier : LsaMessage → Bool) :
    Watching (start me epoch lastSeq signer verifier) where
  signs := hsigner
  expire := fun o e active he => by simp [start, ControlPlane.withAuthAndSeq] at he
  refresh := fun e active he => by simp [start, ControlPlane.withAuthAndSeq] at he
  digest := fun link hlink => by simp [start, ControlPlane.withAuthAndSeq] at hlink

/-- In every state of every run in which each timer is delivered once at most, early, in time or
late: the active entries, the node's own LSA and the links have their timers set, and a timer for a
version or a generation that is not the present one changes nothing. -/
theorem no_timer_lost {me : NodeId} {epoch : UInt32} {lastSeq : UInt64}
    {signer : Lsa → LsaMessage} {verifier : LsaMessage → Bool}
    {inputs : List (MonoTime × TimedInput)} {s : Timed}
    (hsigner : ∀ lsa, (signer lsa).lsa = lsa)
    (h : inputs.foldlM step (start me epoch lastSeq signer verifier) = some s) :
    (∀ (o : NodeId) (e : LsdbEntry) (active : ActiveLsa), s.plane.lsdb[o]? = some e →
      e.active = some active →
      (.lsaExpire o e.version.epoch e.version.seq, active.expiresAt) ∈ s.waiting) ∧
    (∀ (e : LsdbEntry) (active : ActiveLsa), s.plane.lsdb[s.plane.me]? = some e →
      e.active = some active →
      ∃ due, (.lsaRefresh e.version.epoch e.version.seq, due) ∈ s.waiting) ∧
    (∀ link, link ∈ s.plane.adjacencies → ∃ due, (.digest link, due) ∈ s.waiting) ∧
    ∀ now,
      (∀ (o : NodeId) (e : LsdbEntry) epoch' seq', s.plane.lsdb[o]? = some e →
        e.version ≠ ⟨epoch', seq'⟩ →
        s.plane.handle now (.timer (.lsaExpire o epoch' seq')) = some (s.plane, [])) ∧
      (∀ (e : LsdbEntry) epoch' seq', s.plane.lsdb[s.plane.me]? = some e →
        e.version ≠ ⟨epoch', seq'⟩ →
        s.plane.handle now (.timer (.lsaRefresh epoch' seq')) = some (s.plane, [])) ∧
      ∀ generation, (∀ pending, s.plane.pendingSpf = some pending →
          pending.generation ≠ generation) →
        s.plane.handle now (.timer (.spfHold generation)) = some (s.plane, []) := by
  have hinv : s.Watching :=
    foldlM_inv (fun _ _ _ hs hstep => hs.step hstep) (watching_start hsigner _ _ _ _) h
  refine ⟨hinv.expire, hinv.refresh, hinv.digest, fun now => ⟨?_, ?_, ?_⟩⟩
  · intro o e epoch' seq' he hversion
    simp only [ControlPlane.handle, ControlPlane.handleExpireTimer, he, if_pos hversion]
  · intro e epoch' seq' he hversion
    refine ControlPlane.handleRefreshTimer_stale ?_ now
    intro e' he'
    cases he.symm.trans he'
    exact hversion
  · intro generation hother
    simp only [ControlPlane.handle, ControlPlane.handleSpfTimer]
    split
    · rfl
    · rename_i pending hpending
      rw [if_pos (hother pending hpending)]

/-- After a neighbour came up and announced itself, its LSA, the node's own one and the link wait
for their timers. -/
theorem no_timer_lost_neighbour :
    ∃ s e active e' active', neighbourInputs.foldlM step
        (start (.ofByte 1) 1 0 unsecuredSign unsecuredVerify) = some s ∧
      s.plane.lsdb[NodeId.ofByte 2]? = some e ∧ e.active = some active ∧
      (.lsaExpire (.ofByte 2) e.version.epoch e.version.seq, active.expiresAt) ∈ s.waiting ∧
      s.plane.lsdb[s.plane.me]? = some e' ∧ e'.active = some active' ∧
      (∃ due, (.lsaRefresh e'.version.epoch e'.version.seq, due) ∈ s.waiting) ∧
      ∃ due, (.digest 7, due) ∈ s.waiting := by
  have hfacts : (neighbourInputs.foldlM step
      (start (.ofByte 1) 1 0 unsecuredSign unsecuredVerify)).map (fun s =>
        decide (((s.plane.lsdb[NodeId.ofByte 2]?).bind LsdbEntry.active).isSome = true ∧
          ((s.plane.lsdb[s.plane.me]?).bind LsdbEntry.active).isSome = true ∧
          7 ∈ s.plane.adjacencies)) = some true := by
    decide +kernel
  obtain ⟨s, hrun, hdec⟩ := Option.map_eq_some_iff.mp hfacts
  obtain ⟨hpeer, hown, hlink⟩ := of_decide_eq_true hdec
  obtain ⟨active, hactive⟩ := Option.isSome_iff_exists.mp hpeer
  obtain ⟨active', hactive'⟩ := Option.isSome_iff_exists.mp hown
  obtain ⟨e, he, hea⟩ := Option.bind_eq_some_iff.mp hactive
  obtain ⟨e', he', hea'⟩ := Option.bind_eq_some_iff.mp hactive'
  obtain ⟨hexpire, hrefresh, hdigest, -⟩ := no_timer_lost (fun _ => rfl) hrun
  exact ⟨s, e, active, e', active', hrun, he, hea, hexpire _ e active he hea, he', hea',
    hrefresh e' active' he' hea', hdigest 7 hlink⟩

end Timed
end Control
end MeshBus
