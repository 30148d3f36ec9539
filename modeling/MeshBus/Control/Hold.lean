import MeshBus.Control.Schedule
import MeshBus.Lib.HoldDown

/-!
# Control.Hold

How often routes are computed. `mark_spf_dirty` and `handle_spf_timer` are a hold-down timer: a
burst of changes to the database leads to one computation, and computations are spaced by a hold
that doubles up to 5 s and goes back to 100 ms after 10 s without a change.

* `lsdbWrite p x`: the entry that the event `x` writes to the database (`handle_spfStep` says that
  it writes no other); `runsSpf p x`: `x` makes `handle_spf_timer` compute the routes.
* `SchedulesAs p s`: the plane schedules its computation as the hold-down timer `s` does
  (`schedulesAs_step`).
* `spf_rate_limited`: the spacing over every run.
-/

namespace MeshBus
namespace Control
namespace ControlPlane

/-! ## Changes and computations -/

/-- The entry that an origination writes. -/
def ownWrite (p : ControlPlane) (now : MonoTime) : NodeId × LsdbEntry :=
  (p.nextMessage.lsa.origin, activeEntry p.nextMessage now)

/-- The entry that an event writes to the database, under the conditions of `handle`. -/
def lsdbWrite (p : ControlPlane) : MonoTime × ControlEvent → Option (NodeId × LsdbEntry)
  | (now, .linkUp link peer cost) =>
    some ({ p with adjacencies := p.adjacencies.insert link ⟨peer, cost⟩ }.ownWrite now)
  | (now, .linkDown link) =>
    if link ∈ p.adjacencies then
      some ({ p with adjacencies := p.adjacencies.erase link }.ownWrite now)
    else none
  | (now, .localTopicAdsChanged ads) =>
    let ads := ads.insertionSort (· ≤ ·)
    if validTopicAds ads = true ∧ ads ≠ p.localTopicAds then
      some ({ p with localTopicAds := ads }.ownWrite now)
    else none
  | (now, .frame link (.lsa message)) =>
    if p.accepts link message then some (message.lsa.origin, activeEntry message now) else none
  | (now, .timer (.lsaRefresh epoch seq)) =>
    if p.ownCurrent epoch seq then some (p.ownWrite now) else none
  | (now, .timer (.lsaExpire origin epoch seq)) =>
    p.lsdb[origin]?.bind fun entry =>
      if entry.version = ⟨epoch, seq⟩ ∧ entry.active.any (·.expiresAt ≤ now) then
        some (origin, { entry with state := .tombstone })
      else none
  | _ => none

/-- The event is the timer of the pending computation, at or after its deadline. -/
def runsSpf (p : ControlPlane) : MonoTime × ControlEvent → Bool
  | (now, .timer (.spfHold generation)) =>
    p.pendingSpf.any fun pending => pending.generation = generation && pending.due ≤ now
  | _ => false

/-- `q` has the computation of `p` pending, and the same hold. -/
structure SameSchedule (p q : ControlPlane) : Prop where
  pending : q.pendingSpf = p.pendingSpf
  hold : q.spfHoldMs = p.spfHoldMs
  last : q.lastLsdbChangeAt = p.lastLsdbChangeAt

/-- The three ways a step treats the database and the schedule. -/
inductive SpfStep (p : ControlPlane) (x : MonoTime × ControlEvent) : ControlPlane → Prop
  | untouched (unwritten : p.lsdbWrite x = none) (waits : p.runsSpf x = false) : SpfStep p x p
  | dirty {q} (mid : ControlPlane) (o : NodeId) (e : LsdbEntry) (acts : List ControlAction)
      (written : p.lsdbWrite x = some (o, e)) (waits : p.runsSpf x = false)
      (stored : mid.lsdb = p.lsdb.insert o e) (same : SameSchedule p mid)
      (marked : mid.markSpfDirty x.1 = some (q, acts)) : SpfStep p x q
  | ran (pending : PendingSpf) (routed : ControlPlane) (acts : List ControlAction)
      (unwritten : p.lsdbWrite x = none) (runs : p.runsSpf x = true)
      (waiting : p.pendingSpf = some pending) (due : pending.due ≤ x.1)
      (computed : { p with
        pendingSpf := none
        spfHoldMs := min (satMul p.spfHoldMs 2) spfMaxHoldMs }.recomputeRoutes =
          some (routed, acts)) : SpfStep p x routed.recomputeTopicAds.1

variable {x : MonoTime × ControlEvent} {acts : List ControlAction} {p q : ControlPlane}
  {s : HoldDown spfPolicy} {events : List (MonoTime × ControlEvent)}

/-- `mid` is `p` with other links or topic ads. -/
theorem originateLsa_spfStep {p mid q : ControlPlane} (h : mid.originateLsa x.1 = some (q, acts))
    (hwrite : p.lsdbWrite x = some (mid.ownWrite x.1)) (hwaits : p.runsSpf x = false)
    (hlsdb : mid.lsdb = p.lsdb) (hsame : SameSchedule p mid) : SpfStep p x q := by
  obtain ⟨-, -, spf, hmarked, -⟩ := originateLsa_inv h
  refine .dirty _ _ _ spf hwrite hwaits ?_ ⟨?_, ?_, ?_⟩ hmarked
  · rw [originated, hlsdb]
  · exact hsame.pending
  · exact hsame.hold
  · exact hsame.last

theorem receiveLsa_spfStep {now : MonoTime} {link : LinkId} {m : LsaMessage}
    (h : p.receiveLsa now link m = some (q, acts)) : SpfStep p (now, .frame link (.lsa m)) q := by
  cases receiveLsa_cases h with
  | refused hrefused _ =>
    refine .untouched ?_ rfl
    simp [lsdbWrite, hrefused]
  | stored haccepts marked =>
    refine .dirty _ m.lsa.origin (activeEntry m now) _ ?_ rfl ?_ ⟨?_, ?_, ?_⟩ marked
    · simp [lsdbWrite, haccepts]
    all_goals rfl

theorem handleExpireTimer_spfStep {now : MonoTime} {origin : NodeId} {epoch : UInt32} {seq : UInt64}
    (h : p.handleExpireTimer now origin epoch seq = some (q, acts)) :
    SpfStep p (now, .timer (.lsaExpire origin epoch seq)) q := by
  cases handleExpireTimer_cases h with
  | stale other =>
    refine .untouched ?_ rfl
    rw [lsdbWrite, Option.bind_eq_none_iff]
    intro e he
    rw [if_neg]
    rintro ⟨hversion, hactive⟩
    rw [other e he hversion] at hactive
    cases hactive
  | early e active current version isActive hearly =>
    refine .untouched ?_ rfl
    simp [lsdbWrite, current, isActive, hearly]
  | expired e active current version isActive due marked =>
    refine .dirty _ origin { e with state := .tombstone } acts ?_ rfl ?_ ⟨?_, ?_, ?_⟩ marked
    · simp [lsdbWrite, current, version, isActive, due]
    all_goals rfl

theorem handleSpfTimer_spfStep {now : MonoTime} {generation : Nat}
    (h : p.handleSpfTimer now generation = some (q, acts)) :
    SpfStep p (now, .timer (.spfHold generation)) q := by
  cases handleSpfTimer_cases h with
  | stale other =>
    refine .untouched rfl ?_
    cases hpending : p.pendingSpf with
    | none => simp [runsSpf, hpending]
    | some pending => simp [runsSpf, hpending, other pending hpending]
  | early pending waiting current hearly =>
    exact .untouched rfl (by simp [runsSpf, waiting, hearly])
  | ran pending waiting current due routed routes computed =>
    exact .ran pending routed routes rfl (by simp [runsSpf, waiting, current, due]) waiting due
      computed

theorem handle_spfStep (h : p.handle x.1 x.2 = some (q, acts)) : SpfStep p x q := by
  obtain ⟨now, event⟩ := x
  cases handle_cases h with
  | linkUp link peer cost ho => exact originateLsa_spfStep ho rfl rfl rfl ⟨rfl, rfl, rfl⟩
  | linkDown link known ho =>
    exact originateLsa_spfStep ho (if_pos known) rfl rfl ⟨rfl, rfl, rfl⟩
  | unknownLinkDown link unknown => exact .untouched (if_neg unknown) rfl
  | topicAds ads valid changed ho =>
    exact originateLsa_spfStep ho (if_pos ⟨valid, changed⟩) rfl rfl ⟨rfl, rfl, rfl⟩
  | keptTopicAds ads kept =>
    refine .untouched (if_neg ?_) rfl
    rintro ⟨hvalid, hchanged⟩
    rcases kept with hinvalid | hsame
    · rw [hvalid] at hinvalid
      cases hinvalid
    · exact hchanged hsame
  | lsa link m hr => exact receiveLsa_spfStep hr
  | digest | digestReq | digestTimer | deadDigestTimer => exact .untouched rfl rfl
  | spf generation hs => exact handleSpfTimer_spfStep hs
  | refresh epoch seq current ho =>
    exact originateLsa_spfStep ho (if_pos current) rfl rfl ⟨rfl, rfl, rfl⟩
  | staleRefresh epoch seq stale =>
    refine .untouched (if_neg ?_) rfl
    rw [stale]
    exact Bool.false_ne_true
  | expire origin epoch seq he => exact handleExpireTimer_spfStep he

/-! ## The schedule as a hold-down timer -/

def spfPolicy : HoldDown.Policy where
  initial := spfInitialHoldMs
  cap := spfMaxHoldMs
  quiet := spfQuietResetMs
  initial_le_cap := by decide

/-- The plane schedules its computation as `s` does. -/
structure SchedulesAs (p : ControlPlane) (s : HoldDown spfPolicy) : Prop where
  due : p.pendingSpf.map PendingSpf.due = s.due
  hold : p.spfHoldMs = s.hold
  last : p.lastLsdbChangeAt = s.last

theorem schedulesAs_new (me : NodeId) (epoch : UInt32) (lastSeq : UInt64)
    (signer : Lsa → LsaMessage) (verifier : LsaMessage → Bool) :
    SchedulesAs (withAuthAndSeq me epoch lastSeq signer verifier) (.idle spfPolicy) :=
  ⟨rfl, rfl, rfl⟩

theorem SchedulesAs.congr (h : SchedulesAs p s) (hsame : SameSchedule p q) : SchedulesAs q s where
  due := by rw [hsame.pending, h.due]
  hold := hsame.hold.trans h.hold
  last := hsame.last.trans h.last

theorem SchedulesAs.wasQuiet {p : ControlPlane} (h : SchedulesAs p s) (now : Nat) :
    (p.lastLsdbChangeAt.any fun lastChange => spfQuietResetMs ≤ now - lastChange) = true ↔
      s.WasQuiet now := by
  have hge : ∀ l : Nat, 10000 ≤ now - l ↔ l + 10000 ≤ now := fun l => by omega
  rw [h.last, Option.any_eq_true, HoldDown.WasQuiet]
  constructor
  · rintro ⟨l, hl, hle⟩
    exact ⟨l, hl, (hge l).mp (of_decide_eq_true hle)⟩
  · rintro ⟨l, hl, hle⟩
    exact ⟨l, hl, decide_eq_true ((hge l).mpr hle)⟩

theorem markSpfDirty_schedulesAs {now : Nat} (h : SchedulesAs p s) (hclock : now < 2 ^ 64 - 5000)
    (hmarked : p.markSpfDirty now = some (q, acts)) : SchedulesAs q (s.change now) := by
  have hhold : (if p.lastLsdbChangeAt.any fun lastChange => spfQuietResetMs ≤ now - lastChange
      then spfInitialHoldMs else p.spfHoldMs) = s.holdAt now := by
    rw [HoldDown.holdAt, h.hold]
    exact if_congr (h.wasQuiet now) rfl rfl
  have hsome : p.pendingSpf.isSome = s.due.isSome := by
    rw [← h.due, Option.isSome_map]
  have hsat : satAdd now (s.holdAt now) = now + s.holdAt now := by
    have hcap : s.holdAt now ≤ 5000 := s.holdAt_le_cap now
    refine satAdd_eq ?_
    rw [u64Max]
    omega
  simp only [markSpfDirty, hhold] at hmarked
  split at hmarked
  · rename_i hkeep
    rw [Bool.and_eq_true, Bool.not_eq_true', ← Bool.not_eq_true, h.wasQuiet, hsome] at hkeep
    cases hmarked
    refine ⟨?_, rfl, rfl⟩
    rw [HoldDown.change, if_pos hkeep]
    exact h.due
  · rename_i hmove
    rw [Bool.and_eq_true, Bool.not_eq_true', ← Bool.not_eq_true, h.wasQuiet, hsome] at hmove
    split at hmarked
    · cases hmarked
    · have heq := Option.some.inj hmarked
      rw [Prod.mk.injEq] at heq
      obtain ⟨rfl, -⟩ := heq
      refine ⟨?_, rfl, rfl⟩
      rw [HoldDown.change, if_neg hmove, ← hsat]
      rfl

/-- What the timer does when the plane handles `x`. -/
def spfNext (p : ControlPlane) (x : MonoTime × ControlEvent) (s : HoldDown spfPolicy) :
    HoldDown spfPolicy :=
  if p.runsSpf x then s.fire else if (p.lsdbWrite x).isSome then s.change x.1 else s

theorem schedulesAs_step (h : SchedulesAs p s) (hclock : x.1 < 2 ^ 64 - 5000)
    (hstep : p.handle x.1 x.2 = some (q, acts)) : SchedulesAs q (p.spfNext x s) := by
  cases handle_spfStep hstep with
  | untouched unwritten waits =>
    simp only [spfNext, waits, unwritten, Bool.false_eq_true, if_false, Option.isSome_none]
    exact h
  | dirty mid o e acts written waits stored same marked =>
    simp only [spfNext, waits, written, Bool.false_eq_true, if_false, Option.isSome_some, if_true]
    exact markSpfDirty_schedulesAs (h.congr same) hclock marked
  | ran pending routed acts unwritten runs waiting due computed =>
    simp only [spfNext, runs, if_true]
    obtain ⟨-, hrouted, -⟩ := recomputeRoutes_current computed
    rw [(recomputeTopicAds_current routed).1, hrouted]
    refine ⟨rfl, ?_, h.last⟩
    have hsat : satMul p.spfHoldMs 2 = 2 * s.hold := by
      have hcap : s.hold ≤ 5000 := s.hold_le_cap
      rw [h.hold, Nat.mul_comm 2]
      refine satMul_eq ?_
      rw [u64Max]
      omega
    exact congrArg (min · spfMaxHoldMs) hsat

/-! ## Runs -/

/-- The states of a run, each with the event handled there. -/
def visited (p : ControlPlane) (events : List (MonoTime × ControlEvent)) :
    List (ControlPlane × MonoTime × ControlEvent) :=
  visits (fun p x => p.handle x.1 x.2) p events

/-- When the database was written. -/
def changeTimes (vs : List (ControlPlane × MonoTime × ControlEvent)) : List MonoTime :=
  (vs.filter fun v => (v.1.lsdbWrite v.2).isSome).map fun v => v.2.1

theorem changeTimes_append (vs ws : List (ControlPlane × MonoTime × ControlEvent)) :
    changeTimes (vs ++ ws) = changeTimes vs ++ changeTimes ws := by
  rw [changeTimes, List.filter_append, List.map_append]
  rfl

theorem mem_changeTimes {vs : List (ControlPlane × MonoTime × ControlEvent)} {t : MonoTime}
    (h : t ∈ changeTimes vs) : ∃ v ∈ vs, v.2.1 = t := by
  obtain ⟨v, hv, rfl⟩ := List.mem_map.mp h
  exact ⟨v, (List.mem_filter.mp hv).1, rfl⟩

/-- A visit without a computation: the timer sees the changes of that visit. -/
theorem spfNext_of_waits {v : ControlPlane × MonoTime × ControlEvent}
    (h : v.1.runsSpf v.2 = false) (s : HoldDown spfPolicy) :
    v.1.spfNext v.2 s = s.changes (changeTimes [v]) := by
  simp only [spfNext, h, Bool.false_eq_true, if_false, changeTimes, List.filter_cons,
    List.filter_nil]
  split <;> rfl

theorem changeTimes_of_runsSpf {v : ControlPlane × MonoTime × ControlEvent}
    (h : v.1.runsSpf v.2 = true) : changeTimes [v] = [] := by
  obtain ⟨p, now, event⟩ := v
  cases event with
  | timer t =>
    cases t with
    | spfHold generation => rfl
    | digest | lsaRefresh | lsaExpire => cases h
  | linkUp | linkDown | localTopicAdsChanged | frame => cases h

/-- Between two computations the timer sees the changes. -/
theorem schedulesAs_between {p : ControlPlane}
    {between after : List (ControlPlane × MonoTime × ControlEvent)}
    {b : ControlPlane × MonoTime × ControlEvent} (h : SchedulesAs p s)
    (hvisits : p.visited events = between ++ b :: after)
    (hwaits : ∀ v ∈ between, v.1.runsSpf v.2 = false)
    (hclock : ∀ v ∈ between, v.2.1 < 2 ^ 64 - 5000) :
    SchedulesAs b.1 (s.changes (changeTimes between)) := by
  have hinv := visits_inv (H := fun past q => (∀ v ∈ past, v.1.runsSpf v.2 = false) →
    (∀ v ∈ past, v.2.1 < 2 ^ 64 - 5000) → SchedulesAs q (s.changes (changeTimes past))) ?_
    (fun _ _ => h) hvisits
  · exact hinv hwaits hclock
  · intro past q x q' out hq hstep hwaits hclock
    rw [List.forall_mem_append, List.forall_mem_singleton] at hwaits hclock
    rw [changeTimes_append, HoldDown.changes_append, ← spfNext_of_waits hwaits.2]
    exact schedulesAs_step (hq hwaits.1 hclock.1) hclock.2 hstep

/-- At every visit of a run the plane follows a timer that saw the last change when it was. -/
theorem schedulesAs_visited {p : ControlPlane}
    {before after : List (ControlPlane × MonoTime × ControlEvent)}
    {a : ControlPlane × MonoTime × ControlEvent} (h : SchedulesAs p (.idle spfPolicy))
    (hvisits : p.visited events = before ++ a :: after)
    (hclock : ∀ v ∈ before, v.2.1 < 2 ^ 64 - 5000) :
    ∃ s, SchedulesAs a.1 s ∧ s.last = (changeTimes before).getLast? := by
  have hinv := visits_inv (H := fun past q => (∀ v ∈ past, v.2.1 < 2 ^ 64 - 5000) →
    ∃ s, SchedulesAs q s ∧ s.last = (changeTimes past).getLast?) ?_
    (fun _ => ⟨.idle spfPolicy, h, rfl⟩) hvisits
  · exact hinv hclock
  · intro past q x q' out hq hstep hclock
    rw [List.forall_mem_append, List.forall_mem_singleton] at hclock
    obtain ⟨s, hs, hlast⟩ := hq hclock.1
    refine ⟨q.spfNext x s, schedulesAs_step hs hclock.2 hstep, ?_⟩
    rw [changeTimes_append, List.getLast?_append]
    cases hruns : q.runsSpf x with
    | true =>
      have hnone := changeTimes_of_runsSpf (v := (q, x)) hruns
      rw [hnone, spfNext, hruns]
      exact hlast
    | false =>
      have hnext := spfNext_of_waits (v := (q, x)) hruns s
      rw [hnext, HoldDown.last_changes, hlast]

/-- The events visited come in the order of the run. -/
theorem visited_pairwise {p : ControlPlane} (h : events.Pairwise fun x y => x.1 ≤ y.1) :
    (p.visited events).Pairwise fun v w => v.2.1 ≤ w.2.1 := by
  have hsub : ((p.visited events).map Prod.snd).Sublist events := visits_items.sublist
  have hmap := h.sublist hsub
  rw [List.pairwise_map] at hmap
  exact hmap

theorem visited_clock {p : ControlPlane} {bound : Nat} (h : ∀ x ∈ events, x.1 < bound) :
    ∀ v ∈ p.visited events, v.2.1 < bound :=
  fun _ hv => h _ (visits_items.subset (List.mem_map_of_mem hv))

/-- What a computation at `a` and the changes after it, up to `b`, lead to. -/
structure Spaced (before : List (ControlPlane × MonoTime × ControlEvent))
    (a : ControlPlane × MonoTime × ControlEvent)
    (between : List (ControlPlane × MonoTime × ControlEvent))
    (b : ControlPlane × MonoTime × ControlEvent) : Prop where
  /-- The hold after `a` is the one before it doubled, up to 5 s. -/
  hold : ∀ v ∈ (between ++ [b]).head?, v.1.spfHoldMs = min (2 * a.1.spfHoldMs) 5000
  /-- The next computation has a change before it. -/
  coalesced : b.1.runsSpf b.2 = true → changeTimes between ≠ []
  apart : b.1.runsSpf b.2 = true → a.2.1 + 100 ≤ b.2.1
  spaced : b.1.runsSpf b.2 = true →
    spfPolicy.Calm (changeTimes before).getLast? (changeTimes between) →
    a.2.1 + min (2 * a.1.spfHoldMs) 5000 ≤ b.2.1
  deadline : ∀ c rest, changeTimes between = c :: rest → spfPolicy.Calm (some c) rest →
    ∃ pending, b.1.pendingSpf = some pending ∧ pending.due ≤ c + 5000

theorem SchedulesAs.due_of_runsSpf {p : ControlPlane} (h : SchedulesAs p s)
    (hruns : p.runsSpf x = true) : ∃ d : Nat, s.due = some d ∧ d ≤ x.1 := by
  obtain ⟨now, event⟩ := x
  cases event with
  | timer t =>
    cases t with
    | spfHold generation =>
      obtain ⟨pending, hpending, hdue⟩ := (Option.any_eq_true _ _).mp hruns
      rw [Bool.and_eq_true, decide_eq_true_eq, decide_eq_true_eq] at hdue
      refine ⟨pending.due, ?_, hdue.2⟩
      rw [← h.due, hpending]
      rfl
    | digest | lsaRefresh | lsaExpire => cases hruns
  | linkUp | linkDown | localTopicAdsChanged | frame => cases hruns

theorem SchedulesAs.pending_of_due {p : ControlPlane} {d : Nat} (h : SchedulesAs p s)
    (hdue : s.due = some d) : ∃ pending, p.pendingSpf = some pending ∧ pending.due = d :=
  Option.map_eq_some_iff.mp (h.due.trans hdue)

/-- `s` is the timer that the plane follows as it comes to the computation at `a`. -/
theorem spaced_of_schedulesAs {before between : List (ControlPlane × MonoTime × ControlEvent)}
    {a b : ControlPlane × MonoTime × ControlEvent} (ha : SchedulesAs a.1 s)
    (hlast : s.last = (changeTimes before).getLast?)
    (hhold : ∀ v ∈ (between ++ [b]).head?, SchedulesAs v.1 s.fire)
    (hb : SchedulesAs b.1 (s.fire.changes (changeTimes between)))
    (htimes : ∀ c ∈ changeTimes between, a.2.1 ≤ c) : Spaced before a between b := by
  have hfire : s.fire.hold = min (2 * a.1.spfHoldMs) 5000 := by
    rw [ha.hold]
    rfl
  refine ⟨?_, ?_, ?_, ?_, ?_⟩
  · intro v hv
    rw [(hhold v hv).hold, hfire]
  · intro hruns hnone
    obtain ⟨d, hd, -⟩ := hb.due_of_runsSpf hruns
    rw [hnone] at hd
    cases hd
  · intro hruns
    obtain ⟨d, hd, hle⟩ := hb.due_of_runsSpf hruns
    have hidle : ∀ d ∈ s.fire.due, a.2.1 + spfPolicy.initial ≤ d := fun d hd => by cases hd
    exact (HoldDown.changes_due_ge hidle htimes d hd).trans hle
  · intro hruns hcalm
    obtain ⟨d, hd, hle⟩ := hb.due_of_runsSpf hruns
    cases hchanges : changeTimes between with
    | nil =>
      rw [hchanges] at hd
      cases hd
    | cons c rest =>
      rw [hchanges, ← hlast] at hcalm
      have hnotQuiet : ¬ s.fire.WasQuiet c := HoldDown.not_wasQuiet.mpr hcalm.1
      rw [hchanges, HoldDown.changes_due_of_idle rfl hcalm.2, HoldDown.holdAt, if_neg hnotQuiet,
        hfire] at hd
      have hc : a.2.1 ≤ c := htimes c (by rw [hchanges]; exact List.mem_cons_self)
      calc a.2.1 + min (2 * a.1.spfHoldMs) 5000
          ≤ c + min (2 * a.1.spfHoldMs) 5000 := Nat.add_le_add_right hc _
        _ = d := Option.some.inj hd
        _ ≤ b.2.1 := hle
  · intro c rest hchanges hcalm
    rw [hchanges] at hb
    obtain ⟨pending, hpending, hdue⟩ :=
      hb.pending_of_due (HoldDown.changes_due_of_idle rfl hcalm)
    refine ⟨pending, hpending, ?_⟩
    rw [hdue]
    exact Nat.add_le_add_left (s.fire.holdAt_le_cap c) c

/-- Computations are gathered and spaced, in every run with times that do not decrease.

`Spaced`: after a computation at `a`, the next one comes no earlier than 100 ms later, no earlier
than the doubled hold if no change since came 10 s or more after the one before it, and not without
a change; a computation that is pending is due at most 5 s after the first change since `a`, if no
later one came after a quiet time. Without such a change the deadline of a pending computation does
not move. Whatever timers are set, at most one of them can run a computation. -/
theorem spf_rate_limited {me : NodeId} {epoch : UInt32} {lastSeq : UInt64}
    {signer : Lsa → LsaMessage} {verifier : LsaMessage → Bool}
    {events : List (MonoTime × ControlEvent)} (hmono : events.Pairwise fun x y => x.1 ≤ y.1)
    (hclock : ∀ x ∈ events, x.1 < 2 ^ 64 - 5000) :
    (∀ before a between b after,
      (withAuthAndSeq me epoch lastSeq signer verifier).visited events =
        before ++ a :: (between ++ b :: after) →
      a.1.runsSpf a.2 = true → (∀ v ∈ between, v.1.runsSpf v.2 = false) →
      Spaced before a between b) ∧
    (∀ before a between b after pending,
      (withAuthAndSeq me epoch lastSeq signer verifier).visited events =
        before ++ a :: (between ++ b :: after) →
      (∀ v ∈ a :: between, v.1.runsSpf v.2 = false) → a.1.pendingSpf = some pending →
      spfPolicy.Calm (changeTimes before).getLast? (changeTimes (a :: between)) →
      b.1.pendingSpf.map PendingSpf.due = some pending.due) ∧
    ∀ v ∈ (withAuthAndSeq me epoch lastSeq signer verifier).visited events,
      ∀ t generation t' generation', v.1.runsSpf (t, .timer (.spfHold generation)) = true →
        v.1.runsSpf (t', .timer (.spfHold generation')) = true → generation = generation' := by
  have hstart := schedulesAs_new me epoch lastSeq signer verifier
  have hpairs := visited_pairwise (p := withAuthAndSeq me epoch lastSeq signer verifier) hmono
  have htimes := visited_clock (p := withAuthAndSeq me epoch lastSeq signer verifier) hclock
  refine ⟨?_, ?_, ?_⟩
  · intro before a between b after hvisits hruns hwaits
    rw [hvisits] at hpairs htimes
    obtain ⟨hbefore, hrest⟩ := List.forall_mem_append.mp htimes
    obtain ⟨hclockA, hrest⟩ := List.forall_mem_cons.mp hrest
    obtain ⟨hbetween, -⟩ := List.forall_mem_append.mp hrest
    obtain ⟨s, hs, hlast⟩ := schedulesAs_visited hstart hvisits hbefore
    obtain ⟨xs, hfrom⟩ := visits_from hvisits
    obtain ⟨-, p1, out, hstep, hvisits1⟩ := visits_cons_inv hfrom (by simp)
    have hp1 : SchedulesAs p1 s.fire := by
      have hnext := schedulesAs_step hs hclockA hstep
      rw [spfNext, if_pos hruns] at hnext
      exact hnext
    refine spaced_of_schedulesAs hs hlast ?_ (schedulesAs_between hp1 hvisits1 hwaits hbetween) ?_
    · intro v hv
      have hhead : v ∈ (p1.visited xs).head? := by
        rw [visited, hvisits1]
        cases between with
        | nil => exact hv
        | cons u between => exact hv
      rw [visits_head hhead]
      exact hp1
    · intro c hc
      obtain ⟨v, hv, rfl⟩ := mem_changeTimes hc
      have hafter := (List.pairwise_cons.mp (List.pairwise_append.mp hpairs).2.1).1
      exact hafter v (List.mem_append_left _ hv)
  · intro before a between b after pending hvisits hwaits hpending hcalm
    rw [hvisits] at htimes
    obtain ⟨hbefore, hrest⟩ := List.forall_mem_append.mp htimes
    obtain ⟨hclockA, hrest⟩ := List.forall_mem_cons.mp hrest
    obtain ⟨hbetween, -⟩ := List.forall_mem_append.mp hrest
    obtain ⟨s, hs, hlast⟩ := schedulesAs_visited hstart hvisits hbefore
    obtain ⟨xs, hfrom⟩ := visits_from hvisits
    have hvisits1 : a.1.visited (a.2 :: xs) = (a :: between) ++ b :: after := hfrom
    have hb := schedulesAs_between hs hvisits1 hwaits
      (List.forall_mem_cons.mpr ⟨hclockA, hbetween⟩)
    have hdue : s.due = some pending.due := by
      rw [← hs.due, hpending]
      rfl
    rw [← hlast] at hcalm
    rw [hb.due]
    exact HoldDown.changes_due_of_pending hdue hcalm
  · intro v _ t generation t' generation' h h'
    obtain ⟨pending, hpending, heq⟩ := (Option.any_eq_true _ _).mp h
    obtain ⟨pending', hpending', heq'⟩ := (Option.any_eq_true _ _).mp h'
    rw [Bool.and_eq_true, decide_eq_true_eq] at heq heq'
    cases hpending.symm.trans hpending'
    exact heq.1.symm.trans heq'.1

/-- A link comes up, routes are computed, the neighbour announces itself, and they are computed
again. -/
def twoComputations : List (MonoTime × ControlEvent) :=
  [(0, .linkUp 7 (.ofByte 2) unitCost), (100, .timer (.spfHold 1)),
    (110, .frame 7 (.lsa (unsecuredSign Timed.neighbourLsa))), (310, .timer (.spfHold 2))]

/-- The second computation comes 200 ms or more after the first one, the initial hold doubled. -/
theorem spf_rate_limited_twice : ∃ before a between b after,
    (newUnsecuredWithSeq (.ofByte 1) 1 0).visited twoComputations =
      before ++ a :: (between ++ b :: after) ∧
    a.1.runsSpf a.2 = true ∧ b.1.runsSpf b.2 = true ∧ a.1.spfHoldMs = 100 ∧
    a.2.1 + min (2 * a.1.spfHoldMs) 5000 ≤ b.2.1 := by
  have hmarks : ((newUnsecuredWithSeq (.ofByte 1) 1 0).visited twoComputations).map (fun v =>
      (v.2.1, v.1.spfHoldMs, v.1.runsSpf v.2, (v.1.lsdbWrite v.2).isSome)) =
      [(0, 100, false, true), (100, 100, true, false), (110, 200, false, true),
        (310, 200, true, false)] := by
    decide +kernel
  obtain ⟨v0, _, hvisits, hv0, hmarks⟩ := List.map_eq_cons_iff.mp hmarks
  obtain ⟨a, _, rfl, ha, hmarks⟩ := List.map_eq_cons_iff.mp hmarks
  obtain ⟨v1, _, rfl, hv1, hmarks⟩ := List.map_eq_cons_iff.mp hmarks
  obtain ⟨b, _, rfl, hb, hmarks⟩ := List.map_eq_cons_iff.mp hmarks
  obtain rfl := List.map_eq_nil_iff.mp hmarks
  simp only [Prod.mk.injEq] at hv0 ha hv1 hb
  obtain ⟨ht0, -, -, hw0⟩ := hv0
  obtain ⟨-, hhold, hruns, -⟩ := ha
  obtain ⟨ht1, -, hwaits, hw1⟩ := hv1
  obtain ⟨-, -, hruns', -⟩ := hb
  have hspaced := (spf_rate_limited (by decide) (by decide)).1 [v0] a [v1] b [] hvisits hruns
    (by simpa using hwaits)
  refine ⟨[v0], a, [v1], b, [], hvisits, hruns, hruns', hhold, hspaced.spaced hruns' ?_⟩
  simp [changeTimes, hw0, hw1, ht0, ht1, HoldDown.Policy.Calm, spfPolicy, spfQuietResetMs]

end ControlPlane
end Control
end MeshBus
