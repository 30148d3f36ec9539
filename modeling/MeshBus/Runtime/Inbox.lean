import MeshBus.Lib.TimerQueue
import MeshBus.Runtime.Live
import MeshBus.Runtime.Schedules

/-!
# Runtime.Inbox

`run_runtime_loop` closed over its own timers: `RuntimeInbox::recv` hands out what arrives from the
links and the application, and the timers that the loop itself has scheduled. The clock is read when
`recv` is entered and again when it has returned, and never goes back.

* `timers_once_and_in_time`: every scheduled timer waits or was handed out, once and not early.
* `overdue_timers_first`: a timer whose time has passed is handed out after exactly as many inputs
  as there are timers before it, whatever else arrives.
* `timers_cover`: everything in the two cores that waits for a timer has it in the inbox, and the
  node's own LSA stays active.
-/

namespace MeshBus

namespace Control.Timed

/-- What the plane needs of the timers that wait. -/
structure Served (s : Timed) : Prop where
  inv : s.Inv
  watching : s.Watching
  ahead : s.Ahead

/-- The order in which the timers wait is no part of it. -/
theorem Served.congr {p : ControlPlane} {w w' : List (ControlTimer × MonoTime)}
    (h : ∀ t due, (t, due) ∈ w' ↔ (t, due) ∈ w) (hs : Served ⟨p, w⟩) : Served ⟨p, w'⟩ := by
  obtain ⟨⟨current, timer⟩, ⟨signs, expire, refresh, digest⟩, ⟨-, past, own⟩⟩ := hs
  dsimp only at *
  refine ⟨⟨current, ?_⟩, ⟨signs, ?_, ?_, ?_⟩, ⟨signs, ?_, ?_⟩⟩
  all_goals
    simp only [expireTimer, refreshTimer, h] at *
    assumption

theorem Served.handled {s : Timed} (hs : s.Served) {now : MonoTime} {event : ControlEvent}
    {q : ControlPlane} {acts : List ControlAction} {kept : List (ControlTimer × MonoTime)}
    (hsub : kept ⊆ s.waiting)
    (hkept : ∀ t due, (t, due) ∈ s.waiting → event ≠ .timer t → (t, due) ∈ kept)
    (hearliest : ∀ timer, event = .timer timer →
      ∃ due, (timer, due) ∈ s.waiting ∧ ∀ x ∈ s.waiting, due ≤ x.2)
    (hclock : now < 2 ^ 64 - 300000) (hq : s.plane.handle now event = some (q, acts)) :
    Served ⟨q, kept ++ timers acts⟩ :=
  ⟨hs.inv.handled hkept (ControlPlane.handle_recomputed hq), hs.watching.handled hkept hq,
    hs.ahead.handled hsub hkept hearliest hclock hq⟩

end Control.Timed

namespace Forward

theorem timers_append (a b : List ForwardAction) : timers (a ++ b) = timers a ++ timers b :=
  List.filterMap_append

namespace Driven

theorem Covered.mono {f : Forwarder} {w w' : List (ForwardTimer × MonoTime)}
    (h : ∀ t due, (t, due) ∈ w → (t, due) ∈ w') (hs : Covered ⟨f, w⟩) : Covered ⟨f, w'⟩ :=
  fun g batch hg => h _ _ (hs g batch hg)

/-- Events that deliver no timer. -/
theorem Covered.events {now : MonoTime} : ∀ {events : List ForwardEvent} {f f' : Forwarder}
    {waiting : List (ForwardTimer × MonoTime)} {acts : List ForwardAction},
    Covered ⟨f, waiting⟩ → (∀ e ∈ events, ∀ timer, e ≠ .timer timer) →
    emitAll (fun f e => f.handle now e) f events = some (f', acts) →
    Covered ⟨f', waiting ++ timers acts⟩ := by
  intro events
  induction events with
  | nil =>
    intro f f' waiting acts hs _ h
    cases h
    simpa [timers] using hs
  | cons e events ih =>
    intro f f' waiting acts hs hother h
    obtain ⟨f1, out, rest, he, hrest, rfl⟩ := emitAll_cons_inv h
    have hfirst := Covered.handled hs (fun _ _ hmem _ => hmem) he
    have hrun := ih hfirst (fun e he => hother e (List.mem_cons_of_mem _ he)) hrest
    rwa [List.append_assoc, ← timers_append] at hrun

end Driven
end Forward

namespace Runtime

open Control Forward Wire PubSub

/-- What reaches `recv` from outside. -/
inductive Incoming where
  | link (event : LinkEvent)
  | forward (input : ForwardInput)
  | pubSub (event : PubSubEvent)

def Incoming.input : Incoming → RuntimeInput
  | .link event => .link event
  | .forward input => .forward input
  | .pubSub event => .pubSub event

/-- One call of `recv` and the iteration after it: the clock at the call, what is outside when it
has returned, and what arrives if the call waits. -/
structure Call where
  entered : MonoTime
  outside : Outside
  incoming : Option Incoming

/-- What one iteration took, with the deadline if it was a timer, and what it did. -/
structure Taken where
  now : MonoTime
  input : RuntimeInput
  due : Option MonoTime
  effects : List Effect

structure Loop where
  rt : RuntimeState
  timers : TimerQueue RuntimeTimer
  clock : MonoTime

namespace Loop

def start (me : NodeId) (epoch : UInt32) (persistedSeq : UInt64) (policies : TopicPolicies) :
    Loop where
  rt := .spawn me epoch persistedSeq policies
  timers := .empty
  clock := 0

/-- `RuntimeInbox::recv`; `none` while it waits. -/
def recv (timers : TimerQueue RuntimeTimer) (x : Call) :
    Option (RuntimeInput × Option MonoTime × TimerQueue RuntimeTimer) :=
  match timers.pop with
  | none => x.incoming.map fun i => (i.input, none, timers)
  | some (e, rest) =>
    if e.due ≤ x.entered then some (.timer e.item, some e.due, rest)
    else
      match x.incoming with
      | some i => some (i.input, none, timers)
      | none =>
        if e.due ≤ x.outside.now then some (.timer e.item, some e.due, rest) else none

/-- One iteration after which the loop goes on. -/
def step (build : Build) (s : Loop) (x : Call) : Option (Loop × List Taken) :=
  if s.clock ≤ x.entered ∧ x.entered ≤ x.outside.now then do
    let (input, due, timers) ← recv s.timers x
    let (rt, effects, continues) ← s.rt.iterate build x.outside input
    if continues then
      some (⟨rt, timers.scheduleAll (schedules effects), x.outside.now⟩,
        [⟨x.outside.now, input, due, effects⟩])
    else none
  else none

def run (build : Build) (s : Loop) (calls : List Call) : Option (Loop × List Taken) :=
  emitAll (step build) s calls

/-- A neighbour comes up and announces itself; then the node stalls for 400 s. -/
def openingCalls : List Call :=
  [⟨0, Linked.beside 0, some (.link (.up 7 (.ofByte 2)))⟩,
    ⟨10, Linked.beside 10, some (.link (.frame 7 Linked.neighbourFrame))⟩]

def stalledCalls : List Call :=
  List.replicate 4
    ⟨400000, Linked.beside 400000, some (.forward (.outbound Linked.neighbourPacket))⟩

/-- The timers that are overdue then. -/
def stalledEntries : List (TimerEntry RuntimeTimer) :=
  [⟨100, 2, .control (.spfHold 1)⟩, ⟨10000, 3, .control (.digest 7)⟩,
    ⟨60000, 1, .control (.lsaRefresh 1 1)⟩]

def stalledExpiry : TimerEntry RuntimeTimer := ⟨300000, 0, .control (.lsaExpire (.ofByte 1) 1 1)⟩

def neighbourExpiry : TimerEntry RuntimeTimer :=
  ⟨300010, 4, .control (.lsaExpire (.ofByte 2) 1 1)⟩

theorem stalled_runs : ∃ s s' taken taken',
    (start (.ofByte 1) 1 0 .empty).run Linked.neighbourBuild openingCalls = some (s, taken) ∧
    s.run Linked.neighbourBuild stalledCalls = some (s', taken') ∧
    s.timers.entries = stalledEntries ++ stalledExpiry :: [neighbourExpiry] ∧
    NodeId.ofByte 1 ∈ s'.rt.plane.lsdb ∧ s'.rt.plane.me = .ofByte 1 := by
  have hfacts : (((start (.ofByte 1) 1 0 .empty).run Linked.neighbourBuild openingCalls).bind
      fun r => (r.1.run Linked.neighbourBuild stalledCalls).map fun r' =>
        decide (r.1.timers.entries = stalledEntries ++ stalledExpiry :: [neighbourExpiry] ∧
          NodeId.ofByte 1 ∈ r'.1.rt.plane.lsdb ∧ r'.1.rt.plane.me = .ofByte 1)) = some true := by
    decide +kernel
  obtain ⟨⟨s, taken⟩, hopening, hfacts⟩ := Option.bind_eq_some_iff.mp hfacts
  obtain ⟨⟨s', taken'⟩, hstalled, hfacts⟩ := Option.map_eq_some_iff.mp hfacts
  exact ⟨s, s', taken, taken', hopening, hstalled, of_decide_eq_true hfacts⟩

/-! ## One iteration -/

/-- What `recv` can hand out. -/
inductive Received (timers : TimerQueue RuntimeTimer) (x : Call) :
    RuntimeInput → Option MonoTime → TimerQueue RuntimeTimer → Prop
  | timer {e : TimerEntry RuntimeTimer} {rest : TimerQueue RuntimeTimer}
      (pop : timers.pop = some (e, rest)) (late : e.due ≤ x.outside.now) :
      Received timers x (.timer e.item) (some e.due) rest
  | incoming (i : Incoming)
      (early : ∀ e rest, timers.pop = some (e, rest) → x.entered < e.due) :
      Received timers x i.input none timers

theorem recv_received {timers rest : TimerQueue RuntimeTimer} {x : Call} {input : RuntimeInput}
    {due : Option MonoTime} (hclock : x.entered ≤ x.outside.now)
    (h : recv timers x = some (input, due, rest)) : Received timers x input due rest := by
  simp only [recv] at h
  split at h
  · rename_i hnone
    obtain ⟨i, -, heq⟩ := Option.map_eq_some_iff.mp h
    cases heq
    exact .incoming i fun e rest hpop => by rw [hnone] at hpop; cases hpop
  · rename_i e rest' hpop
    split at h
    · rename_i hdue
      cases h
      exact .timer hpop (hdue.trans hclock)
    · rename_i hwait
      split at h
      · rename_i i hi
        cases h
        refine .incoming i fun e' rest'' hpop' => ?_
        rw [hpop] at hpop'
        cases hpop'
        exact Nat.lt_of_not_le hwait
      · split at h
        · rename_i hlate
          cases h
          exact .timer hpop hlate
        · cases h

theorem step_inv {build : Build} {s s' : Loop} {x : Call} {out : List Taken}
    (h : s.step build x = some (s', out)) :
    ∃ input due rest effects, s.clock ≤ x.entered ∧ x.entered ≤ x.outside.now ∧
      Received s.timers x input due rest ∧
      s.rt.iterate build x.outside input = some (s'.rt, effects, true) ∧
      s'.timers = rest.scheduleAll (schedules effects) ∧ s'.clock = x.outside.now ∧
      out = [⟨x.outside.now, input, due, effects⟩] := by
  simp only [step] at h
  split at h
  · rename_i hclock
    simp only [bind, Option.bind_eq_some_iff] at h
    obtain ⟨⟨input, due, rest⟩, hrecv, ⟨rt, effects, continues⟩, hiterate, h⟩ := h
    dsimp only at h
    split at h
    · rename_i hcontinues
      cases h
      subst hcontinues
      exact ⟨input, due, rest, effects, hclock.1, hclock.2, recv_received hclock.2 hrecv, hiterate,
        rfl, rfl, rfl⟩
    · cases h
  · cases h

/-- Nothing an iteration schedules is due before it. -/
theorem schedules_punctual {build : Build} {outside : Outside} {rt rt' : RuntimeState}
    {input : RuntimeInput} {effects : List Effect} (hnow : outside.now ≤ u64Max)
    (h : rt.iterate build outside input = some (rt', effects, true)) :
    ∀ x ∈ schedules effects, outside.now ≤ x.2 := by
  obtain ⟨planeActions, forwardActions, pubsubActions, hturned⟩ := iterate_turned h
  obtain ⟨others, -, hforwarder⟩ := hturned.forwarder_timers
  intro x hx
  rw [hturned.scheduled, List.mem_append] at hx
  rcases hx with hx | hx
  · obtain ⟨y, hy, rfl⟩ := List.mem_map.mp hx
    rcases hturned.plane with ⟨-, hnone, -⟩ | ⟨event, hhandle, -⟩
    · rw [hnone] at hy
      cases hy
    · exact ControlPlane.handle_punctual hnow hhandle y hy
  · obtain ⟨y, hy, rfl⟩ := List.mem_map.mp hx
    exact Forwarder.run_punctual hnow hforwarder y hy

/-! ## Timers come once, in time and in order -/

/-- The timers that were handed out, with their deadlines. -/
def handedOut (taken : List Taken) : List (RuntimeTimer × MonoTime) :=
  taken.filterMap fun t =>
    match t.input, t.due with
    | .timer timer, some due => some (timer, due)
    | _, _ => none

/-- The timers that were scheduled. -/
def scheduled (taken : List Taken) : List (RuntimeTimer × MonoTime) :=
  taken.flatMap fun t => schedules t.effects

theorem scheduled_append (a b : List Taken) : scheduled (a ++ b) = scheduled a ++ scheduled b :=
  List.flatMap_append

theorem handedOut_append (a b : List Taken) : handedOut (a ++ b) = handedOut a ++ handedOut b :=
  List.filterMap_append

theorem step_conserves {build : Build} {s s' : Loop} {x : Call} {out : List Taken}
    (h : s.step build x = some (s', out)) :
    (s.timers.waiting ++ scheduled out).Perm (handedOut out ++ s'.timers.waiting) := by
  obtain ⟨input, due, rest, effects, -, -, hreceived, -, htimers, -, rfl⟩ := step_inv h
  have hafter := TimerQueue.scheduleAll_perm (schedules effects) rest
  rw [htimers]
  cases hreceived with
  | timer pop late =>
    simp only [scheduled, handedOut, List.flatMap_cons, List.flatMap_nil, List.append_nil,
      List.filterMap_cons, List.filterMap_nil, TimerQueue.waiting_of_pop pop, List.cons_append,
      List.nil_append]
    exact (hafter.symm).cons _
  | incoming i early =>
    have hnone : handedOut [⟨x.outside.now, i.input, none, effects⟩] = [] := by
      cases i <;> rfl
    rw [hnone, List.nil_append, scheduled, List.flatMap_singleton]
    exact hafter.symm

/-- Over every run: what was scheduled is what was handed out and what waits, each as often as it
was scheduled; and nothing was handed out before its deadline. -/
theorem timers_once_and_in_time {build : Build} (me : NodeId) (epoch : UInt32)
    (persistedSeq : UInt64) (policies : TopicPolicies) (calls : List Call) (s : Loop)
    (taken : List Taken)
    (hrun : (start me epoch persistedSeq policies).run build calls = some (s, taken)) :
    (scheduled taken).Perm (handedOut taken ++ s.timers.waiting) ∧
      ∀ t ∈ taken, ∀ due, t.due = some due → due ≤ t.now := by
  refine ⟨?_, ?_⟩
  · have conserves : ∀ {calls : List Call} {s s' : Loop} {taken : List Taken},
        s.run build calls = some (s', taken) →
        (s.timers.waiting ++ scheduled taken).Perm (handedOut taken ++ s'.timers.waiting) := by
      intro calls
      induction calls with
      | nil =>
        intro s s' taken h
        cases h
        simp [scheduled, handedOut]
      | cons x calls ih =>
        intro s s' taken h
        obtain ⟨s1, out, rest, hx, hrest, rfl⟩ := emitAll_cons_inv h
        have hstep := (step_conserves hx).append_right (scheduled rest)
        have hrun := (ih hrest).append_left (handedOut out)
        simp only [scheduled_append, handedOut_append, ← List.append_assoc] at hstep hrun ⊢
        exact hstep.trans hrun
    have hall := conserves hrun
    rwa [start, TimerQueue.waiting, TimerQueue.empty, List.map_nil, List.nil_append] at hall
  · refine (emitAll_out (P := fun _ => True) (R := fun _ => True) ?_ (fun _ _ => trivial) trivial
      hrun).2
    intro s x s' out _ _ hstep
    refine ⟨trivial, ?_⟩
    obtain ⟨input, due, rest, effects, -, -, hreceived, -, -, -, rfl⟩ := step_inv hstep
    intro t ht d hd
    rw [List.mem_singleton.mp ht] at hd ⊢
    cases hreceived with
    | timer pop late =>
      cases hd
      exact late
    | incoming i early => cases hd

/-- What was handed out after the stall and what waits then is what was scheduled. -/
theorem timers_once_and_in_time_stalled : ∃ s taken,
    (start (.ofByte 1) 1 0 .empty).run Linked.neighbourBuild (openingCalls ++ stalledCalls) =
      some (s, taken) ∧
    (scheduled taken).Perm (handedOut taken ++ s.timers.waiting) ∧
    ∀ t ∈ taken, ∀ due, t.due = some due → due ≤ t.now := by
  obtain ⟨s, s', taken, taken', hopening, hstalled, -⟩ := stalled_runs
  have hrun := emitAll_append_some hopening hstalled
  obtain ⟨hperm, htime⟩ := timers_once_and_in_time (.ofByte 1) 1 0 .empty _ s' _ hrun
  exact ⟨s', taken ++ taken', hrun, hperm, htime⟩

/-- When the first timer is due at the call, the iteration takes it. -/
theorem step_takes {build : Build} {s s' : Loop} {x : Call} {out : List Taken}
    {e : TimerEntry RuntimeTimer} {tail : List (TimerEntry RuntimeTimer)}
    (hentries : s.timers.entries = e :: tail) (hdue : e.due ≤ x.entered)
    (h : s.step build x = some (s', out)) :
    ∃ (rest : TimerQueue RuntimeTimer) (effects : List Effect), rest.entries = tail ∧
      x.entered ≤ x.outside.now ∧
      s.rt.iterate build x.outside (.timer e.item) = some (s'.rt, effects, true) ∧
      s'.timers = rest.scheduleAll (schedules effects) ∧
      out.map Taken.input = [.timer e.item] := by
  obtain ⟨input, due, rest, effects, -, hnow, hreceived, hiterate, htimers, -, rfl⟩ := step_inv h
  obtain ⟨rest', hpop, htail⟩ := TimerQueue.pop_of_entries hentries
  cases hreceived with
  | timer pop late =>
    rw [hpop] at pop
    cases pop
    exact ⟨_, effects, htail, hnow, hiterate, htimers, rfl⟩
  | incoming i early => exact absurd hdue (Nat.not_le_of_lt (early e rest' hpop))

/-- Once the time of a timer has passed, the loop takes the timers before it in the queue and then
the timer itself, whatever arrives meanwhile and whatever those timers schedule. -/
theorem overdue_timers_first {build : Build} {before after : List (TimerEntry RuntimeTimer)}
    {x : TimerEntry RuntimeTimer} (calls : List Call) (s s' : Loop) (taken : List Taken)
    (hentries : s.timers.entries = before ++ x :: after)
    (hrun : s.run build calls = some (s', taken)) (hlength : calls.length = before.length + 1)
    (hlate : ∀ call ∈ calls, x.due < call.entered ∧ call.outside.now ≤ u64Max) :
    taken.map Taken.input = (before ++ [x]).map fun e => .timer e.item := by
  induction before generalizing after calls s taken with
  | nil =>
    obtain ⟨call, rfl⟩ := List.length_eq_one_iff.mp hlength
    obtain ⟨s1, out, rest, hcall, hrest, rfl⟩ := emitAll_cons_inv hrun
    cases hrest
    obtain ⟨_, _, -, -, -, -, hout⟩ :=
      step_takes hentries (hlate call List.mem_cons_self).1.le hcall
    rw [List.append_nil, hout]
    rfl
  | cons e before ih =>
    obtain ⟨call, calls, rfl⟩ := List.exists_cons_of_length_eq_add_one hlength
    obtain ⟨s1, out, rest, hcall, hrest, rfl⟩ := emitAll_cons_inv hrun
    obtain ⟨hcallLate, hclock⟩ := hlate call List.mem_cons_self
    have hsorted := s.timers.sorted
    rw [hentries, List.cons_append, List.pairwise_cons] at hsorted
    have hdue : e.due ≤ x.due := (hsorted.1 x (by simp)).due_le
    obtain ⟨queue, effects, hqueue, hnow, hiterate, htimers, hout⟩ :=
      step_takes hentries (hdue.trans hcallLate.le) hcall
    -- what the iteration schedules is due after `x`, so `x` keeps its place
    obtain ⟨after', hafter⟩ := TimerQueue.scheduleAll_behind (schedules effects)
      (fun t ht => hcallLate.trans_le (hnow.trans (schedules_punctual hclock hiterate t ht))) hqueue
    have hih := ih calls s1 rest (htimers ▸ hafter) hrest (Nat.succ.inj hlength)
      fun c hc => hlate c (List.mem_cons_of_mem _ hc)
    rw [List.map_append, hout, hih]
    rfl

/-- Four packets wait to be sent; the four timers up to the expiry of the own LSA come first. -/
theorem overdue_timers_first_stalled : ∃ s s' taken taken',
    (start (.ofByte 1) 1 0 .empty).run Linked.neighbourBuild openingCalls = some (s, taken) ∧
    s.run Linked.neighbourBuild stalledCalls = some (s', taken') ∧
    taken'.map Taken.input = (stalledEntries ++ [stalledExpiry]).map fun e => .timer e.item := by
  obtain ⟨s, s', taken, taken', hopening, hstalled, hentries, -⟩ := stalled_runs
  refine ⟨s, s', taken, taken', hopening, hstalled,
    overdue_timers_first stalledCalls s s' taken' hentries hstalled rfl fun call hcall => ?_⟩
  rw [List.eq_of_mem_replicate hcall]
  decide

/-! ## Whatever waits for a timer has it in the inbox -/

/-- The timers of each core. -/
def controlTimers (timers : List (RuntimeTimer × MonoTime)) : List (ControlTimer × MonoTime) :=
  timers.filterMap fun
    | (.control t, due) => some (t, due)
    | (.forward _, _) => none

def forwardTimers (timers : List (RuntimeTimer × MonoTime)) : List (ForwardTimer × MonoTime) :=
  timers.filterMap fun
    | (.control _, _) => none
    | (.forward t, due) => some (t, due)

theorem mem_controlTimers {timers : List (RuntimeTimer × MonoTime)} {t : ControlTimer}
    {due : MonoTime} : (t, due) ∈ controlTimers timers ↔ (.control t, due) ∈ timers := by
  simp only [controlTimers, List.mem_filterMap]
  constructor
  · rintro ⟨⟨timer, d⟩, hmem, heq⟩
    cases timer <;> cases heq
    exact hmem
  · exact fun hmem => ⟨_, hmem, rfl⟩

theorem mem_forwardTimers {timers : List (RuntimeTimer × MonoTime)} {t : ForwardTimer}
    {due : MonoTime} : (t, due) ∈ forwardTimers timers ↔ (.forward t, due) ∈ timers := by
  simp only [forwardTimers, List.mem_filterMap]
  constructor
  · rintro ⟨⟨timer, d⟩, hmem, heq⟩
    cases timer <;> cases heq
    exact hmem
  · exact fun hmem => ⟨_, hmem, rfl⟩

theorem Received.subset {timers rest : TimerQueue RuntimeTimer} {x : Call} {input : RuntimeInput}
    {due : Option MonoTime} (h : Received timers x input due rest) :
    rest.waiting ⊆ timers.waiting := by
  cases h with
  | timer pop late =>
    rw [TimerQueue.waiting_of_pop pop]
    exact List.subset_cons_self _ _
  | incoming i early => exact List.Subset.refl _

theorem Received.kept {timers rest : TimerQueue RuntimeTimer} {x : Call} {input : RuntimeInput}
    {due : Option MonoTime} (h : Received timers x input due rest) {t : RuntimeTimer} {d : MonoTime}
    (hmem : (t, d) ∈ timers.waiting) (hother : input ≠ .timer t) : (t, d) ∈ rest.waiting := by
  cases h with
  | timer pop late =>
    rw [TimerQueue.waiting_of_pop pop] at hmem
    rcases List.mem_cons.mp hmem with heq | hmem
    · cases heq
      exact absurd rfl hother
    · exact hmem
  | incoming i early => exact hmem

theorem Received.earliest {timers rest : TimerQueue RuntimeTimer} {x : Call} {t : RuntimeTimer}
    {due : Option MonoTime} (h : Received timers x (.timer t) due rest) :
    ∃ d, (t, d) ∈ timers.waiting ∧ ∀ y ∈ timers.waiting, d ≤ y.2 := by
  generalize hinput : RuntimeInput.timer t = input at h
  cases h with
  | timer pop late =>
    cases hinput
    refine ⟨_, ?_, fun y hy => TimerQueue.due_le_of_pop pop hy⟩
    rw [TimerQueue.waiting_of_pop pop]
    exact List.mem_cons_self
  | incoming i early => cases i <;> cases hinput

/-- What the two cores need of the timers that wait. -/
structure Served (s : Loop) : Prop where
  plane : Timed.Served ⟨s.rt.plane, controlTimers s.timers.waiting⟩
  forwarder : Driven.Covered ⟨s.rt.forwarder, forwardTimers s.timers.waiting⟩

theorem served_start (me : NodeId) (epoch : UInt32) (persistedSeq : UInt64)
    (policies : TopicPolicies) : Served (start me epoch persistedSeq policies) where
  plane := ⟨Timed.inv_start .., Timed.watching_start (fun _ => rfl) ..,
    Timed.ahead_start (fun _ => rfl) ..⟩
  forwarder := by
    intro g batch hg
    simp [start, RuntimeState.spawn, Forwarder.new] at hg

/-- The plane's part of an iteration. -/
theorem Served.plane_step {build : Build} {s : Loop} (hs : s.Served) {x : Call}
    {input : RuntimeInput} {due : Option MonoTime} {rest : TimerQueue RuntimeTimer}
    {rt' : RuntimeState} {effects : List Effect} {planeActions : List ControlAction}
    {forwardActions : List ForwardAction} {pubsubActions : List PubSubAction}
    (hreceived : Received s.timers x input due rest) (hclock : x.outside.now < 2 ^ 64 - 300000)
    (h : Turned build x.outside s.rt input rt' effects planeActions forwardActions pubsubActions) :
    Timed.Served ⟨rt'.plane, controlTimers rest.waiting ++ Control.timers planeActions⟩ := by
  rcases h.plane with ⟨hsame, rfl, hother⟩ | ⟨event, hhandle, htimer⟩
  · rw [hsame]
    refine hs.plane.congr fun t d => ?_
    rw [show Control.timers [] = [] from rfl, List.append_nil, mem_controlTimers, mem_controlTimers]
    exact ⟨fun hmem => hreceived.subset hmem, fun hmem => hreceived.kept hmem (hother t)⟩
  · refine Timed.Served.handled hs.plane ?_ ?_ ?_ hclock hhandle
    · rintro ⟨t, d⟩ hmem
      exact mem_controlTimers.mpr (hreceived.subset (mem_controlTimers.mp hmem))
    · intro t d hmem hother
      refine mem_controlTimers.mpr (hreceived.kept (mem_controlTimers.mp hmem) ?_)
      exact fun hinput => hother ((htimer t).mpr hinput)
    · intro t hevent
      rw [(htimer t).mp hevent] at hreceived
      obtain ⟨d, hmem, hleast⟩ := hreceived.earliest
      refine ⟨d, mem_controlTimers.mpr hmem, ?_⟩
      rintro ⟨t', d'⟩ hmem'
      exact hleast _ (mem_controlTimers.mp hmem')

/-- The forwarder's part. -/
theorem Served.forwarder_step {build : Build} {s : Loop} (hs : s.Served) {x : Call}
    {input : RuntimeInput} {due : Option MonoTime} {rest : TimerQueue RuntimeTimer}
    {rt' : RuntimeState} {effects : List Effect} {planeActions : List ControlAction}
    {forwardActions : List ForwardAction} {pubsubActions : List PubSubAction}
    (hreceived : Received s.timers x input due rest)
    (h : Turned build x.outside s.rt input rt' effects planeActions forwardActions pubsubActions) :
    Driven.Covered
      ⟨rt'.forwarder, forwardTimers rest.waiting ++ Forward.timers forwardActions⟩ := by
  have hkept : ∀ t d, (t, d) ∈ forwardTimers s.timers.waiting → input ≠ .timer (.forward t) →
      (t, d) ∈ forwardTimers rest.waiting := fun t d hmem hother =>
    mem_forwardTimers.mpr (hreceived.kept (mem_forwardTimers.mp hmem) hother)
  obtain ⟨others, hothers, hrun⟩ := h.forwarder_timers
  cases hdelivered : input.forwardTimer? with
  | none =>
    rw [hdelivered] at hrun
    refine Driven.Covered.events (hs.forwarder.mono fun t d hmem => hkept t d hmem ?_) hothers hrun
    rintro rfl
    cases hdelivered
  | some timer =>
    have hinput : input = .timer (.forward timer) := by
      unfold RuntimeInput.forwardTimer? at hdelivered
      split at hdelivered <;> cases hdelivered
      rfl
    rw [hdelivered] at hrun
    obtain ⟨f1, out, restOut, hfire, hrest, heq⟩ := emitAll_cons_inv hrun
    have hfired := Driven.Covered.handled hs.forwarder
      (fun t d hmem hother => hkept t d hmem fun hi => hother (by rw [hinput] at hi; cases hi; rfl))
      hfire
    have hall := hfired.events hothers hrest
    rwa [List.append_assoc, ← Forward.timers_append, ← heq] at hall

theorem Served.step {build : Build} {s s' : Loop} {x : Call} {out : List Taken} (hs : s.Served)
    (hclock : x.outside.now < 2 ^ 64 - 300000) (h : s.step build x = some (s', out)) :
    s'.Served := by
  obtain ⟨input, due, rest, effects, -, -, hreceived, hiterate, htimers, -, -⟩ := step_inv h
  obtain ⟨planeActions, forwardActions, pubsubActions, hturned⟩ := iterate_turned hiterate
  have hwaiting : ∀ y, y ∈ s'.timers.waiting ↔ y ∈ rest.waiting ∨
      y ∈ (Control.timers planeActions).map ofControl ∨
        y ∈ (Forward.timers forwardActions).map ofForward := by
    intro y
    rw [htimers, TimerQueue.mem_waiting_scheduleAll, hturned.scheduled, List.mem_append]
  refine ⟨(hs.plane_step hreceived hclock hturned).congr fun t d => ?_,
    (hs.forwarder_step hreceived hturned).mono fun t d hmem => ?_⟩
  · rw [mem_controlTimers, hwaiting, List.mem_append, mem_controlTimers]
    simp [ofControl, ofForward]
  · rw [List.mem_append, mem_forwardTimers] at hmem
    rw [mem_forwardTimers, hwaiting]
    simpa [ofControl, ofForward] using hmem

/-- After every run whose clock stays below the deadlines that saturate: a pending route
computation, every active LSA, the node's own one, every link and every parked batch have their
timer in the inbox, with the deadline they carry; and the own LSA is active, with its refresh due
before its end. -/
theorem timers_cover {build : Build} (me : NodeId) (epoch : UInt32) (persistedSeq : UInt64)
    (policies : TopicPolicies) (calls : List Call) (s : Loop) (taken : List Taken)
    (hrun : (start me epoch persistedSeq policies).run build calls = some (s, taken))
    (hclock : ∀ call ∈ calls, call.outside.now < 2 ^ 64 - 300000) :
    (∀ pending, s.rt.plane.pendingSpf = some pending →
      (.control (.spfHold pending.generation), pending.due) ∈ s.timers.waiting) ∧
    (∀ (o : NodeId) (e : LsdbEntry) (active : ActiveLsa), s.rt.plane.lsdb[o]? = some e →
      e.active = some active →
      (.control (.lsaExpire o e.version.epoch e.version.seq), active.expiresAt) ∈
        s.timers.waiting) ∧
    (∀ e : LsdbEntry, s.rt.plane.lsdb[s.rt.plane.me]? = some e → ∃ active due,
      e.active = some active ∧ due < active.expiresAt ∧
      (.control (.lsaRefresh e.version.epoch e.version.seq), due) ∈ s.timers.waiting) ∧
    (∀ link, link ∈ s.rt.plane.adjacencies →
      ∃ due, (.control (.digest link), due) ∈ s.timers.waiting) ∧
    ∀ (g : Nat) (batch : PendingP0Batch), s.rt.forwarder.pendingP0[g]? = some batch →
      (.forward (.pendingP0 g), batch.expiresAt) ∈ s.timers.waiting := by
  have hserved : s.Served := (emitAll_out
    (R := fun call : Call => call.outside.now < 2 ^ 64 - 300000) (Q := fun _ => True)
    (fun _ _ _ _ hs hnow hstep => ⟨hs.step hnow hstep, fun _ _ => trivial⟩)
    hclock (served_start me epoch persistedSeq policies) hrun).1
  obtain ⟨⟨hinv, hwatching, hahead⟩, hcovered⟩ := hserved
  refine ⟨fun pending hp => mem_controlTimers.mp (hinv.timer pending hp),
    fun o e active he hactive => mem_controlTimers.mp (hwatching.expire o e active he hactive),
    fun e he => ?_, fun link hlink => ?_,
    fun g batch hg => mem_forwardTimers.mp (hcovered g batch hg)⟩
  · obtain ⟨active, hactive, due, hrefresh, hlate⟩ := hahead.own e he
    exact ⟨active, due, hactive, hlate _ (hwatching.expire _ e active he hactive),
      mem_controlTimers.mp hrefresh⟩
  · obtain ⟨due, hdue⟩ := hwatching.digest link hlink
    exact ⟨due, mem_controlTimers.mp hdue⟩

/-- After the stall the own LSA is active and waits for its next refresh. -/
theorem timers_cover_stalled : ∃ s taken,
    (start (.ofByte 1) 1 0 .empty).run Linked.neighbourBuild (openingCalls ++ stalledCalls) =
      some (s, taken) ∧
    ∃ e active due, s.rt.plane.lsdb[s.rt.plane.me]? = some e ∧ e.active = some active ∧
      due < active.expiresAt ∧
      (.control (.lsaRefresh e.version.epoch e.version.seq), due) ∈ s.timers.waiting := by
  obtain ⟨s, s', taken, taken', hopening, hstalled, -, hmem, hme⟩ := stalled_runs
  have hrun := emitAll_append_some hopening hstalled
  obtain ⟨-, -, hown, -⟩ := timers_cover (.ofByte 1) 1 0 .empty _ s' _ hrun (by decide)
  obtain ⟨e, he⟩ := OrdMap.mem_iff_get.mp hmem
  rw [← hme] at he
  obtain ⟨active, due, hactive, hlate, hwaiting⟩ := hown e he
  exact ⟨s', _, hrun, e, active, due, he, hactive, hlate, hwaiting⟩

end Loop
end Runtime
end MeshBus
