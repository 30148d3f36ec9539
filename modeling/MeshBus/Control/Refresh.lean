import MeshBus.Control.Timers

/-!
# Control.Refresh

A node's own LSA does not expire on the node itself. Each origination sets two timers, one to
refresh the LSA after a fifth of its lifetime and one to expire it at the end. The inbox of the
runtime hands out the timer with the earlier deadline first, however late both are by then, and the
refresh originates a new version, for which the old expiry timer is stale.

* `OwnStep p now event q acts`: what one step does to the node's own entry (`handle_ownStep`).
* `InboxOrder`: the input is one that `RuntimeInbox::recv` can hand out.
* `Ahead`: the refresh of the present own version waits with an earlier deadline than its expiry.
* `own_lsa_stays_active`: over every run in inbox order.
-/

namespace MeshBus
namespace Control
namespace ControlPlane

/-! ## What a step does to the own entry -/

/-- The timers of the route computation. -/
def OnlySpf (acts : List ControlAction) : Prop :=
  ∀ timer due, (timer, due) ∈ timers acts → ∃ generation, timer = .spfHold generation

theorem markSpfDirty_onlySpf {p q : ControlPlane} {now : MonoTime} {acts : List ControlAction}
    (h : p.markSpfDirty now = some (q, acts)) : OnlySpf acts := by
  intro timer due hmem
  simp only [markSpfDirty] at h
  split at h
  · cases h
    simp at hmem
  · split at h
    · cases h
    · cases h
      rw [timers_cons_setTimer, timers_nil, List.mem_singleton] at hmem
      cases hmem
      exact ⟨_, rfl⟩

/-- A computation sets no timer. -/
theorem recomputeRoutes_timers {p q : ControlPlane} {acts : List ControlAction}
    (h : p.recomputeRoutes = some (q, acts)) : timers acts = [] := by
  simp only [recomputeRoutes, bind, Option.bind_eq_some_iff] at h
  obtain ⟨table, -, h⟩ := h
  split at h
  · cases h
    rfl
  · split at h
    · cases h
    · cases h
      rfl

theorem handleSpfTimer_onlySpf {p q : ControlPlane} {now : MonoTime} {generation : Nat}
    {acts : List ControlAction} (h : p.handleSpfTimer now generation = some (q, acts)) :
    OnlySpf acts := by
  intro timer due hmem
  cases handleSpfTimer_cases h with
  | stale => cases hmem
  | early =>
    rw [timers_cons_setTimer, timers_nil, List.mem_singleton] at hmem
    cases hmem
    exact ⟨_, rfl⟩
  | ran pending waiting current due routed routes computed =>
    have hads : timers routed.recomputeTopicAds.2 = [] := by
      rw [recomputeTopicAds]
      split <;> rfl
    rw [timers_append, recomputeRoutes_timers computed, hads] at hmem
    cases hmem

/-- No expiry timer of the node's own LSA is set. -/
def NoOwnExpiry (me : NodeId) (acts : List ControlAction) : Prop :=
  ∀ epoch seq due, (.lsaExpire me epoch seq, due) ∉ timers acts

theorem OnlySpf.noOwnExpiry {acts : List ControlAction} (h : OnlySpf acts) (me : NodeId) :
    NoOwnExpiry me acts := by
  intro epoch seq due hmem
  obtain ⟨generation, heq⟩ := h _ _ hmem
  cases heq

theorem noOwnExpiry_of_replies {acts : List ControlAction} (h : Replies acts) (me : NodeId) :
    NoOwnExpiry me acts := by
  intro epoch seq due hmem
  rw [h.timers] at hmem
  cases hmem

/-- The three ways a step treats the node's own entry. -/
inductive OwnStep (p : ControlPlane) (now : MonoTime) (event : ControlEvent) :
    ControlPlane → List ControlAction → Prop
  | kept {q acts} (entry : q.lsdb[p.me]? = p.lsdb[p.me]?) (seq : q.mySeq = p.mySeq)
      (other : ∀ (e : LsdbEntry) (active : ActiveLsa), p.lsdb[p.me]? = some e →
        e.active = some active → event ≠ .timer (refreshTimer e))
      (silent : NoOwnExpiry p.me acts) : OwnStep p now event q acts
  | originated {q acts} (m : LsaMessage) (entry : q.lsdb[p.me]? = some (activeEntry m now))
      (seq : q.mySeq = p.mySeq + 1) (room : p.mySeq.toNat ≠ u64Max)
      (version : m.lsa.seq = p.mySeq + 1) (ttl : ttlMs m.lsa = 300000)
      (refresh : (refreshTimer (activeEntry m now), satAdd now (ttlMs m.lsa / 5)) ∈ timers acts)
      (expiry : ∀ epoch seq due, (.lsaExpire p.me epoch seq, due) ∈ timers acts →
        seq = p.mySeq + 1 ∧ due = satAdd now (ttlMs m.lsa)) : OwnStep p now event q acts
  | expiry {q acts} (e : LsdbEntry) (current : p.lsdb[p.me]? = some e)
      (delivered : event = .timer (expireTimer p.me e)) : OwnStep p now event q acts

variable {p q : ControlPlane} {now : MonoTime} {acts : List ControlAction}

theorem originateLsa_sets (h : p.originateLsa now = some (q, acts)) :
    ∃ spf, OnlySpf spf ∧ timers acts =
      (.lsaExpire p.nextMessage.lsa.origin p.nextMessage.lsa.epoch p.nextMessage.lsa.seq,
        satAdd now (ttlMs p.nextMessage.lsa)) ::
      (.lsaRefresh p.nextMessage.lsa.epoch p.nextMessage.lsa.seq,
        satAdd now (ttlMs p.nextMessage.lsa / 5)) :: timers spf := by
  obtain ⟨-, -, spf, hd, rfl⟩ := originateLsa_inv h
  refine ⟨spf, markSpfDirty_onlySpf hd, ?_⟩
  simp only [timers_append, timers_cons_persistSeq, List.cons_append, (flood_replies _ _ _).timers,
    installTimer, nextRefreshTimer, timers_cons_setTimer, timers_nil, List.nil_append]

/-- `extra` are the actions that follow those of the origination. -/
theorem originateLsa_ownStep {p mid q : ControlPlane} {event : ControlEvent}
    {acts extra : List ControlAction} (hs : ∀ lsa, (p.signer lsa).lsa = lsa)
    (ho : mid.originateLsa now = some (q, acts)) (hprep : Prepared p mid)
    (hextra : NoOwnExpiry p.me extra) : OwnStep p now event q (acts ++ extra) := by
  have hO := originateLsa_spec ho
  obtain ⟨spf, hspf, htimers⟩ := originateLsa_sets ho
  have hlsa : mid.nextMessage.lsa = mid.localLsa (p.mySeq + 1) := by
    rw [nextMessage, hprep.signer, hs, hprep.mySeq]
  have horigin : mid.nextMessage.lsa.origin = p.me := by
    rw [hlsa]
    exact hprep.me
  refine .originated mid.nextMessage ?_ ?_ ?_ ?_ ?_ ?_ ?_
  · rw [hO.same.lsdb, originated, horigin]
    simp
  · rw [hO.same.mySeq, originated, hprep.mySeq]
  · rw [← hprep.mySeq]
    exact hO.seq_lt
  · rw [hlsa]
    rfl
  · have hms : ttlMs mid.nextMessage.lsa = satMul defaultLsaTtlSec.toNat 1000 := by
      rw [hlsa]
      rfl
    rw [hms]
    decide
  · rw [timers_append, htimers]
    exact List.mem_append_left _ (List.mem_cons_of_mem _ List.mem_cons_self)
  · intro epoch seq due hmem
    rw [timers_append, htimers, List.mem_append, List.mem_cons, List.mem_cons] at hmem
    rcases hmem with (heq | heq | hmem) | hmem
    · rw [Prod.mk.injEq, ControlTimer.lsaExpire.injEq] at heq
      obtain ⟨⟨-, -, rfl⟩, rfl⟩ := heq
      rw [hlsa]
      exact ⟨rfl, rfl⟩
    · cases heq
    · exact absurd hmem (hspf.noOwnExpiry _ _ _ _)
    · exact absurd hmem (hextra _ _ _)

theorem receiveLsa_ownStep {link : LinkId} {m : LsaMessage}
    (h : p.receiveLsa now link m = some (q, acts)) :
    OwnStep p now (.frame link (.lsa m)) q acts := by
  cases receiveLsa_cases h with
  | refused _ replies => exact .kept rfl rfl (by simp) (noOwnExpiry_of_replies replies _)
  | stored haccepts marked =>
    have hforeign : m.lsa.origin ≠ p.me := by
      intro heq
      simp [accepts, heq] at haccepts
    have hsame := (markSpfDirty_spec marked).1
    refine .kept ?_ hsame.mySeq (by simp) ?_
    · rw [hsame.lsdb, OrdMap.get_insert, if_neg hforeign]
    · intro epoch seq due hmem
      rw [timers_append, timers_append, (flood_replies _ _ _).timers, installTimer,
        timers_cons_setTimer, timers_nil, List.nil_append, List.mem_append,
        List.mem_singleton] at hmem
      rcases hmem with heq | hmem
      · rw [Prod.mk.injEq, ControlTimer.lsaExpire.injEq] at heq
        exact hforeign heq.1.1.symm
      · exact (markSpfDirty_onlySpf marked).noOwnExpiry _ _ _ _ hmem

theorem handleExpireTimer_ownStep {origin : NodeId} {epoch : UInt32} {seq : UInt64}
    (h : p.handleExpireTimer now origin epoch seq = some (q, acts)) :
    OwnStep p now (.timer (.lsaExpire origin epoch seq)) q acts := by
  have kept : ∀ {q acts}, q.lsdb[p.me]? = p.lsdb[p.me]? → q.mySeq = p.mySeq →
      NoOwnExpiry p.me acts → OwnStep p now (.timer (.lsaExpire origin epoch seq)) q acts :=
    fun hentry hseq hsilent => .kept hentry hseq (fun e _ _ _ => by simp [refreshTimer]) hsilent
  have own : ∀ {q acts} (e : LsdbEntry), p.lsdb[origin]? = some e → e.version = ⟨epoch, seq⟩ →
      origin = p.me → OwnStep p now (.timer (.lsaExpire origin epoch seq)) q acts := by
    rintro q acts e current version rfl
    refine .expiry e current ?_
    rw [expireTimer, version]
  cases handleExpireTimer_cases h with
  | stale => exact kept rfl rfl fun _ _ _ hmem => by cases hmem
  | early e active current version isActive _ =>
    by_cases hme : origin = p.me
    · exact own e current version hme
    · refine kept rfl rfl ?_
      intro epoch' seq' due hmem
      rw [timers_cons_setTimer, timers_nil, List.mem_singleton] at hmem
      cases hmem
      exact hme rfl
  | expired e active current version isActive due marked =>
    by_cases hme : origin = p.me
    · exact own e current version hme
    · have hsame := (markSpfDirty_spec marked).1
      refine kept ?_ hsame.mySeq ((markSpfDirty_onlySpf marked).noOwnExpiry _)
      rw [hsame.lsdb, OrdMap.get_insert, if_neg hme]

theorem handle_ownStep {event : ControlEvent} (hs : ∀ lsa, (p.signer lsa).lsa = lsa)
    (h : p.handle now event = some (q, acts)) : OwnStep p now event q acts := by
  have plain : ∀ {mid q : ControlPlane} {acts : List ControlAction} {event : ControlEvent},
      mid.originateLsa now = some (q, acts) → Prepared p mid → OwnStep p now event q acts := by
    intro mid q acts event ho hprep
    rw [← List.append_nil acts]
    exact originateLsa_ownStep hs ho hprep fun _ _ _ hmem => by cases hmem
  have hnil : NoOwnExpiry p.me [] := fun _ _ _ hmem => by cases hmem
  cases handle_cases h with
  | linkUp link peer cost ho =>
    refine originateLsa_ownStep hs ho ⟨rfl, rfl, rfl, rfl, rfl, rfl⟩ ?_
    intro epoch seq due hmem
    simp [sendDigest, nextDigestTimer] at hmem
  | linkDown link known ho => exact plain ho ⟨rfl, rfl, rfl, rfl, rfl, rfl⟩
  | topicAds ads valid changed ho => exact plain ho ⟨rfl, rfl, rfl, rfl, rfl, rfl⟩
  | refresh epoch seq current ho => exact plain ho ⟨rfl, rfl, rfl, rfl, rfl, rfl⟩
  | unknownLinkDown | keptTopicAds => exact .kept rfl rfl (by simp) hnil
  | deadDigestTimer => exact .kept rfl rfl (by simp [refreshTimer]) hnil
  | lsa link m hr => exact receiveLsa_ownStep hr
  | digest link entries hd =>
    exact .kept rfl rfl (by simp) (noOwnExpiry_of_replies (receiveDigest_replies hd) _)
  | digestReq link origins =>
    exact .kept rfl rfl (by simp) (noOwnExpiry_of_replies (receiveDigestReq_replies _ _ _) _)
  | digestTimer link known =>
    refine .kept rfl rfl (by simp [refreshTimer]) ?_
    intro epoch seq due hmem
    simp [sendDigest, nextDigestTimer] at hmem
  | spf generation hspf =>
    have hsame := (handleSpfTimer_spec hspf).1
    refine .kept ?_ hsame.mySeq (by simp [refreshTimer])
      ((handleSpfTimer_onlySpf hspf).noOwnExpiry _)
    rw [hsame.lsdb]
  | staleRefresh epoch seq stale =>
    refine .kept rfl rfl ?_ hnil
    intro e active he hactive hevent
    cases hevent
    simp [ownCurrent, he, hactive] at stale
  | expire origin epoch seq he => exact handleExpireTimer_ownStep he

end ControlPlane

/-! ## Runs in inbox order -/

def ControlEvent.isTimer : ControlEvent → Bool
  | .timer _ => true
  | _ => false

namespace Timed

/-- What `RuntimeInbox::recv` can hand out: an event that is no timer, or, at or after its deadline,
the timer with the least deadline. `waiting` is in scheduling order, and of several timers with that
deadline `argmin` is the first one. -/
def InboxOrder (s : Timed) : MonoTime × TimedInput → Prop
  | (_, .event event) => event.isTimer = false
  | (now, .fire timer due) => due ≤ now ∧ s.waiting.argmin Prod.snd = some (timer, due)

instance (s : Timed) : ∀ input, Decidable (s.InboxOrder input)
  | (_, .event event) => inferInstanceAs (Decidable (event.isTimer = false))
  | (now, .fire timer due) =>
    inferInstanceAs (Decidable (due ≤ now ∧ s.waiting.argmin Prod.snd = some (timer, due)))

theorem InboxOrder.earliest {s : Timed} {input : MonoTime × TimedInput} {timer : ControlTimer}
    (h : s.InboxOrder input) (ht : input.2.handled = .timer timer) :
    ∃ due, (timer, due) ∈ s.waiting ∧ ∀ x ∈ s.waiting, due ≤ x.2 := by
  obtain ⟨now, event | ⟨timer', due⟩⟩ := input
  · have hevent : event.isTimer = false := h
    rw [show event = .timer timer from ht] at hevent
    cases hevent
  · cases ht
    exact ⟨due, List.argmin_mem h.2, fun x hx => List.le_of_mem_argmin hx h.2⟩

/-- The present own version is active, and its refresh waits with an earlier deadline than its
expiry. Expiry timers of versions still to come are not set. -/
structure Ahead (s : Timed) : Prop where
  signs : ∀ lsa, (s.plane.signer lsa).lsa = lsa
  past : ∀ epoch seq due, (.lsaExpire s.plane.me epoch seq, due) ∈ s.waiting →
    seq.toNat ≤ s.plane.mySeq.toNat
  own : ∀ e, s.plane.lsdb[s.plane.me]? = some e →
    ∃ active, e.active = some active ∧ ∃ due, (refreshTimer e, due) ∈ s.waiting ∧
      ∀ due', (expireTimer s.plane.me e, due') ∈ s.waiting → due < due'

theorem refresh_lt_expiry {now : Nat} (h : now < 2 ^ 64 - 300000) :
    satAdd now (300000 / 5) < satAdd now 300000 := by
  simp only [satAdd, u64Max]
  omega

/-- `kept` are the waiting timers that `event` is not the delivery of; a timer that is delivered has
the least deadline. -/
theorem Ahead.handled {s : Timed} (hs : s.Ahead) {now : MonoTime} {event : ControlEvent}
    {q : ControlPlane} {acts : List ControlAction} {kept : List (ControlTimer × MonoTime)}
    (hsub : kept ⊆ s.waiting)
    (hkept : ∀ t due, (t, due) ∈ s.waiting → event ≠ .timer t → (t, due) ∈ kept)
    (hearliest : ∀ timer, event = .timer timer →
      ∃ due, (timer, due) ∈ s.waiting ∧ ∀ x ∈ s.waiting, due ≤ x.2)
    (hclock : now < 2 ^ 64 - 300000) (hq : s.plane.handle now event = some (q, acts)) :
    Ahead ⟨q, kept ++ timers acts⟩ := by
  have hsame := (ControlPlane.handle_spec hq).effect.same
  have hsigns : ∀ lsa, (q.signer lsa).lsa = lsa := by
    rw [hsame.signer]
    exact hs.signs
  cases ControlPlane.handle_ownStep hs.signs hq with
  | kept entry seq other silent =>
    have hold : ∀ epoch seq due,
        (.lsaExpire s.plane.me epoch seq, due) ∈ kept ++ timers acts →
        (.lsaExpire s.plane.me epoch seq, due) ∈ s.waiting := by
      intro epoch seq due hmem
      rcases List.mem_append.mp hmem with hmem | hmem
      · exact hsub hmem
      · exact absurd hmem (silent epoch seq due)
    refine ⟨hsigns, ?_, ?_⟩
    · intro epoch seq' due hmem
      rw [hsame.me] at hmem
      rw [seq]
      exact hs.past epoch seq' due (hold epoch seq' due hmem)
    · intro e he
      rw [hsame.me] at he ⊢
      rw [entry] at he
      obtain ⟨active, hactive, due, hrefresh, hlate⟩ := hs.own e he
      refine ⟨active, hactive, due, List.mem_append_left _ ?_, fun due' hmem => ?_⟩
      · exact hkept _ _ hrefresh (other e active he hactive)
      · exact hlate due' (hold _ _ due' hmem)
  | originated m entry seq room version ttl refresh expiry =>
    have hlt := ControlPlane.seq_lt_succ room
    have hcount : q.mySeq.toNat = (s.plane.mySeq + 1).toNat := congrArg UInt64.toNat seq
    refine ⟨hsigns, ?_, ?_⟩
    · intro epoch seq' due hmem
      rw [hsame.me] at hmem
      rcases List.mem_append.mp hmem with hmem | hmem
      · have := hs.past epoch seq' due (hsub hmem)
        dsimp only
        omega
      · rw [(expiry epoch seq' due hmem).1]
        exact hcount.ge
    · intro e he
      rw [hsame.me] at he ⊢
      rw [entry] at he
      cases he
      refine ⟨_, rfl, _, List.mem_append_right _ refresh, fun due' hmem => ?_⟩
      rcases List.mem_append.mp hmem with hmem | hmem
      · -- a waiting expiry is one of an earlier version
        have hpast := hs.past _ _ _ (hsub hmem)
        have hseq : (ControlPlane.activeEntry m now).version.seq = s.plane.mySeq + 1 := version
        rw [hseq] at hpast
        exact absurd hlt (Nat.not_lt.mpr hpast)
      · rw [(expiry _ _ _ hmem).2, ttl]
        exact refresh_lt_expiry hclock
  | expiry e current delivered =>
    -- the expiry would be delivered before the refresh, which has the earlier deadline
    obtain ⟨due, hdue, hleast⟩ := hearliest _ delivered
    obtain ⟨-, -, due', hrefresh, hlate⟩ := hs.own e current
    exact absurd (hlate due hdue) (Nat.not_lt.mpr (hleast _ hrefresh))

theorem Ahead.step {s s' : Timed} {input : MonoTime × TimedInput} (hs : s.Ahead)
    (horder : s.InboxOrder input) (hclock : input.1 < 2 ^ 64 - 300000)
    (h : s.step input = some s') : s'.Ahead := by
  obtain ⟨kept, q, acts, hsub, hkept, hq, rfl⟩ := step_inv h
  exact hs.handled hsub hkept (fun _ ht => horder.earliest ht) hclock hq

theorem ahead_start {signer : Lsa → LsaMessage} (hsigner : ∀ lsa, (signer lsa).lsa = lsa)
    (me : NodeId) (epoch : UInt32) (lastSeq : UInt64) (verifier : LsaMessage → Bool) :
    Ahead (start me epoch lastSeq signer verifier) where
  signs := hsigner
  past := fun _ _ _ hmem => by cases hmem
  own := fun e he => by simp [start, ControlPlane.withAuthAndSeq] at he

theorem run_me {inputs : List (MonoTime × TimedInput)} {s s' : Timed}
    (h : inputs.foldlM step s = some s') : s'.plane.me = s.plane.me := by
  refine foldlM_inv (P := fun s1 => s1.plane.me = s.plane.me) ?_ rfl h
  intro s1 input s2 hs1 hstep
  obtain ⟨kept, q, acts, -, -, hq, rfl⟩ := step_inv hstep
  exact (ControlPlane.handle_spec hq).effect.same.me.trans hs1

theorem run_mem_lsdb {o : NodeId} {inputs : List (MonoTime × TimedInput)} {s s' : Timed}
    (h : inputs.foldlM step s = some s') (hs : o ∈ s.plane.lsdb) : o ∈ s'.plane.lsdb := by
  refine foldlM_inv (P := fun s => o ∈ s.plane.lsdb) ?_ hs h
  intro s1 input s2 hs1 hstep
  obtain ⟨kept, q, acts, -, -, hq, rfl⟩ := step_inv hstep
  exact (ControlPlane.handle_spec hq).effect.mem_lsdb hs1

/-- A node that has originated its LSA has it active in every later state, when its timers come in
the order of the inbox, at any delay, and the clock stays below 2^64 - 300000 ms. The node itself is
in its database only once it has originated: `receive_lsa` does not store what claims to come from
the node. -/
theorem own_lsa_stays_active {me : NodeId} {epoch : UInt32} {lastSeq : UInt64}
    {signer : Lsa → LsaMessage} {verifier : LsaMessage → Bool}
    {before since : List (MonoTime × TimedInput)} {s0 s : Timed}
    (hsigner : ∀ lsa, (signer lsa).lsa = lsa)
    (hbefore : before.foldlM step (start me epoch lastSeq signer verifier) = some s0)
    (hsince : since.foldlM step s0 = some s)
    (horder : AlongM step InboxOrder (start me epoch lastSeq signer verifier) (before ++ since))
    (hclock : ∀ input ∈ before ++ since, input.1 < 2 ^ 64 - 300000)
    (horiginated : me ∈ s0.plane.lsdb) :
    ∃ e active, s.plane.lsdb[me]? = some e ∧ e.active = some active := by
  have hrun : (before ++ since).foldlM step (start me epoch lastSeq signer verifier) = some s := by
    rw [List.foldlM_append, hbefore]
    exact hsince
  have hahead : s.Ahead :=
    AlongM.inv (fun _ _ _ hs hP hstep => hs.step hP.2 hP.1 hstep) (horder.and_forall hclock)
      (ahead_start hsigner me epoch lastSeq verifier) hrun
  obtain ⟨e, he⟩ := OrdMap.mem_iff_get.mp (run_mem_lsdb hsince horiginated)
  have hme : s.plane.me = me := run_me hrun
  obtain ⟨active, hactive, -⟩ := hahead.own e (by rw [hme]; exact he)
  exact ⟨e, active, he, hactive⟩

/-- A link comes up, and the node stalls for 400 s. All its timers are overdue then. -/
def stalledStart : List (MonoTime × TimedInput) :=
  [(0, .event (.linkUp 7 (.ofByte 2) unitCost))]

def stalledInputs : List (MonoTime × TimedInput) :=
  [(400000, .fire (.spfHold 1) 100), (400000, .fire (.digest 7) 10000),
    (400001, .fire (.lsaRefresh 1 1) 60000), (400001, .fire (.lsaExpire (.ofByte 1) 1 1) 300000)]

/-- The refresh still comes before the expiry. -/
theorem own_lsa_stays_active_stalled :
    ∃ s0 s e active,
      stalledStart.foldlM step (start (.ofByte 1) 1 0 unsecuredSign unsecuredVerify) = some s0 ∧
      stalledInputs.foldlM step s0 = some s ∧
      s.plane.lsdb[NodeId.ofByte 1]? = some e ∧ e.active = some active := by
  have hrun : ((stalledStart.foldlM step
      (start (.ofByte 1) 1 0 unsecuredSign unsecuredVerify)).bind fun s0 =>
        (stalledInputs.foldlM step s0).map fun _ => decide (.ofByte 1 ∈ s0.plane.lsdb)) =
      some true := by
    decide +kernel
  have horder : AlongM step InboxOrder (start (.ofByte 1) 1 0 unsecuredSign unsecuredVerify)
      (stalledStart ++ stalledInputs) := by
    decide +kernel
  obtain ⟨s0, hbefore, hrest⟩ := Option.bind_eq_some_iff.mp hrun
  obtain ⟨s, hsince, hmem⟩ := Option.map_eq_some_iff.mp hrest
  obtain ⟨e, active, he, hactive⟩ := own_lsa_stays_active (fun _ => rfl) hbefore hsince horder
    (by decide) (of_decide_eq_true hmem)
  exact ⟨s0, s, e, active, hbefore, hsince, he, hactive⟩

end Timed
end Control
end MeshBus
