import MeshBus.Forward.Failure

/-!
# Forward.Expiry

Parked packets always have a timer, and none expires early (`parked_covered`).

* `Driven`: a forwarder with the timers it has set and that were not delivered yet.
* `Covered`: every batch waits for a timer with its deadline.
* `Numbered f n`: the batches of `f` have generations below `n`, the next one gets `n`. It holds
  with `n` the number of batches created, until all `2 ^ 64` generations are used up.
-/

namespace MeshBus
namespace Forward

open Wire
open Control (RouteTable)

/-- The timers an action list sets. -/
def timers (acts : List ForwardAction) : List (ForwardTimer × MonoTime) :=
  acts.filterMap fun
    | .setTimer timer due => some (timer, due)
    | _ => none

theorem timers_waits (acts : List ForwardAction) : timers (waits acts) = timers acts := by
  rw [timers, waits, List.filterMap_filter]
  congr 1
  funext a
  cases a with
  | drop reason packet => split <;> rfl
  | send _ _ | deliverLocal _ | backpressure _ _ | setTimer _ _ => rfl

theorem mem_timers_setTimer {t timer : ForwardTimer} {d due : MonoTime} :
    (t, d) ∈ timers [.setTimer timer due] ↔ t = timer ∧ d = due := by
  simp [timers]

theorem timers_expired (packets : List QueuedPacket) :
    timers (Forwarder.dropQueuedPackets packets .routeWaitExpired) = [] := by
  rw [timers, List.filterMap_eq_nil_iff]
  intro a ha
  obtain ⟨q, -, rfl⟩ := List.mem_map.mp ha
  rfl

namespace Forwarder

/-! ## Generations -/

/-- The batches an event creates. -/
def batches (f : Forwarder) : ForwardEvent → Nat
  | .linkDown link => if f.queue link .p0 = [] then 0 else 1
  | _ => 0

/-- The batches a run creates. -/
def created (f : Forwarder) : List (MonoTime × ForwardEvent) → Nat
  | [] => 0
  | e :: events => f.batches e.2 +
      match f.handle e.1 e.2 with
      | none => 0
      | some r => created r.1 events

/-- Every generation below `n` has been given out, and no other. -/
structure Numbered (f : Forwarder) (n : Nat) : Prop where
  next : f.nextPendingGeneration = n
  below : ∀ g, g ∈ f.pendingP0 → g < n

theorem numbered_new (me : NodeId) (routes : RouteTable) : (new me routes).Numbered 0 :=
  ⟨rfl, fun g hg => by simp [new] at hg⟩

theorem Numbered.free {f : Forwarder} {n g : Nat} (hf : f.Numbered n)
    (h : freeGeneration f.pendingP0 (f.pendingP0.size + 1) f.nextPendingGeneration = some g) :
    g = n := by
  have hfree : f.pendingP0.contains n = false :=
    OrdMap.contains_eq_false.mpr fun hmem => Nat.lt_irrefl n (hf.below n hmem)
  rw [hf.next, freeGeneration, hfree] at h
  exact (Option.some.inj h).symm

/-- A batch that is gone does not come back: its generation is not given out again. -/
theorem Numbered.handle {f f' : Forwarder} {now : MonoTime} {event : ForwardEvent}
    {acts : List ForwardAction} {n : Nat} (hf : f.Numbered n)
    (hn : n + f.batches event < 2 ^ 64) (h : f.handle now event = some (f', acts)) :
    f'.Numbered (n + f.batches event) ∧ ∀ g < n, g ∉ f.pendingP0 → g ∉ f'.pendingP0 := by
  have hpark := handle_parkStep h
  generalize waits acts = w at hpark
  cases hpark with
  | same pending next stale empty =>
    have hnone : f.batches event = 0 := by
      cases event with
      | linkDown link => rw [batches, if_pos (empty link rfl)]
      | outbound _ | outboundMulticast _ _ | inbound _ _ | routesUpdated _ | linkCredit _ _
      | linkWritable _ | timer _ => rfl
    rw [hnone, pending]
    refine ⟨⟨next.trans hf.next, ?_⟩, fun g _ hg => hg⟩
    rw [pending]
    exact hf.below
  | parked link g' waiting free pending next =>
    have hone : f.batches (.linkDown link) = 1 := by rw [batches, if_neg waiting]
    have hg' := hf.free free
    subst hg'
    rw [hone] at hn ⊢
    refine ⟨⟨next.trans (Nat.mod_eq_of_lt hn), fun g hg => ?_⟩, fun g hlt hg => ?_⟩
    · rw [pending, OrdMap.mem_insert] at hg
      rcases hg with rfl | hg
      · exact Nat.lt_succ_self _
      · exact Nat.lt_succ_of_lt (hf.below g hg)
    · rw [pending, OrdMap.mem_insert, not_or]
      exact ⟨(Nat.ne_of_lt hlt).symm, hg⟩
  | retried routes pending next =>
    have hkeys : ∀ g, g ∈ f'.pendingP0 → g ∈ f.pendingP0 := by
      intro g hg
      obtain ⟨batch, hbatch⟩ := OrdMap.mem_iff_get.mp hg
      rw [pending, Option.bind_eq_some_iff] at hbatch
      obtain ⟨old, hold, -⟩ := hbatch
      exact OrdMap.mem_iff_get.mpr ⟨old, hold⟩
    exact ⟨⟨next.trans hf.next, fun g hg => hf.below g (hkeys g hg)⟩,
      fun g _ hg hg' => hg (hkeys g hg')⟩
  | early g' batch found wait => exact ⟨hf, fun g _ hg => hg⟩
  | expired g' batch found late =>
    refine ⟨⟨hf.next, fun g hg => hf.below g ((OrdMap.mem_erase _ _ _).mp hg).2⟩, ?_⟩
    exact fun g _ hg hg' => hg ((OrdMap.mem_erase _ _ _).mp hg').2

theorem Numbered.run : ∀ {events : List (MonoTime × ForwardEvent)} {f f' : Forwarder}
    {acts : List ForwardAction} {n : Nat}, f.Numbered n → n + f.created events < 2 ^ 64 →
    f.run events = some (f', acts) →
    f'.Numbered (n + f.created events) ∧ ∀ g < n, g ∉ f.pendingP0 → g ∉ f'.pendingP0 := by
  intro events
  induction events with
  | nil =>
    intro f f' acts n hf _ h
    cases h
    exact ⟨hf, fun g _ hg => hg⟩
  | cons e events ih =>
    intro f f' acts n hf hn h
    obtain ⟨f1, out, rest, h1, h2, -⟩ := emitAll_cons_inv h
    have hcreated : f.created (e :: events) = f.batches e.2 + f1.created events := by
      simp only [created, h1]
    rw [hcreated] at hn ⊢
    obtain ⟨hf1, hgone1⟩ := hf.handle (by omega) h1
    obtain ⟨hf', hgone⟩ := ih hf1 (by omega) h2
    rw [Nat.add_assoc] at hf'
    exact ⟨hf', fun g hg hnot => hgone g (by omega) (hgone1 g hg hnot)⟩

theorem created_append {before after : List (MonoTime × ForwardEvent)} :
    ∀ {f f1 : Forwarder} {acts : List ForwardAction}, f.run before = some (f1, acts) →
    f.created (before ++ after) = f.created before + f1.created after := by
  induction before with
  | nil =>
    intro f f1 acts h
    cases h
    simp [created]
  | cons e before ih =>
    intro f f1 acts h
    obtain ⟨f2, out, rest, h1, h2, -⟩ := emitAll_cons_inv h
    simp only [List.cons_append, created, h1, ih h2]
    rw [Nat.add_assoc]

end Forwarder

/-! ## Runs with timers -/

/-- A forwarder and the timers it has set that are not delivered yet. -/
structure Driven where
  forwarder : Forwarder
  waiting : List (ForwardTimer × MonoTime)

/-- `fire` delivers a timer that waits, at any time; every other event is `event`. -/
inductive DrivenInput where
  | event (event : ForwardEvent)
  | fire (timer : ForwardTimer) (due : MonoTime)

/-- What the forwarder sees. -/
def DrivenInput.seen : DrivenInput → ForwardEvent
  | .event e => e
  | .fire timer _ => .timer timer

namespace Driven

/-- The timers that wait when an input comes; a timer is delivered at most once. -/
def kept (s : Driven) : DrivenInput → Option (List (ForwardTimer × MonoTime))
  | .event _ => some s.waiting
  | .fire timer due =>
    if (timer, due) ∈ s.waiting then some (s.waiting.erase (timer, due)) else none

def step (s : Driven) (input : MonoTime × DrivenInput) : Option (Driven × List ForwardAction) := do
  let kept ← s.kept input.2
  let (f, acts) ← s.forwarder.handle input.1 input.2.seen
  some (⟨f, kept ++ timers acts⟩, acts)

def run (s : Driven) (inputs : List (MonoTime × DrivenInput)) :
    Option (Driven × List ForwardAction) := emitAll step s inputs

def start (me : NodeId) (routes : RouteTable) : Driven := ⟨.new me routes, []⟩

/-- The events of a run. -/
def events (inputs : List (MonoTime × DrivenInput)) : List (MonoTime × ForwardEvent) :=
  inputs.map fun input => (input.1, input.2.seen)

theorem events_append (a b : List (MonoTime × DrivenInput)) :
    events (a ++ b) = events a ++ events b := List.map_append

theorem step_inv {s s' : Driven} {input : MonoTime × DrivenInput} {acts : List ForwardAction}
    (h : s.step input = some (s', acts)) :
    ∃ kept, (∀ t due, (t, due) ∈ s.waiting → input.2.seen ≠ .timer t → (t, due) ∈ kept) ∧
      kept ⊆ s.waiting ∧ s.forwarder.handle input.1 input.2.seen = some (s'.forwarder, acts) ∧
      s'.waiting = kept ++ timers acts := by
  simp only [step, bind, Option.bind_eq_some_iff] at h
  obtain ⟨kept, hkept, ⟨f, acts'⟩, hf, heq⟩ := h
  cases heq
  obtain ⟨now, event | ⟨timer, due⟩⟩ := input
  · cases hkept
    exact ⟨s.waiting, fun _ _ hmem _ => hmem, List.Subset.refl _, hf, rfl⟩
  · simp only [Driven.kept] at hkept
    split at hkept
    · cases hkept
      refine ⟨_, fun t d hmem hne => ?_, List.erase_subset, hf, rfl⟩
      refine (List.mem_erase_of_ne ?_).mpr hmem
      intro heq
      cases heq
      exact hne rfl
    · cases hkept

/-- Only a timer that waits is delivered. -/
theorem mem_waiting_of_fire {s s' : Driven} {now due : MonoTime} {timer : ForwardTimer}
    {acts : List ForwardAction} (h : s.step (now, .fire timer due) = some (s', acts)) :
    (timer, due) ∈ s.waiting := by
  simp only [step, kept, bind, Option.bind_eq_some_iff] at h
  obtain ⟨_, hkept, -⟩ := h
  split at hkept
  · assumption
  · cases hkept

/-- The forwarder of a run with timers makes a run of its own. -/
theorem run_events : ∀ {inputs : List (MonoTime × DrivenInput)} {s s' : Driven}
    {acts : List ForwardAction}, s.run inputs = some (s', acts) →
    s.forwarder.run (events inputs) = some (s'.forwarder, acts) := by
  intro inputs
  induction inputs with
  | nil =>
    intro s s' acts h
    cases h
    rfl
  | cons input inputs ih =>
    intro s s' acts h
    obtain ⟨s1, out, rest, h1, h2, rfl⟩ := emitAll_cons_inv h
    obtain ⟨kept, -, -, hf, -⟩ := step_inv h1
    exact emitAll_cons_some hf (ih h2)

/-- Every parked batch waits for a timer with its deadline. -/
def Covered (s : Driven) : Prop :=
  ∀ (g : Nat) batch, s.forwarder.pendingP0[g]? = some batch →
    (.pendingP0 g, batch.expiresAt) ∈ s.waiting

/-- `kept` are the waiting timers that `event` is not the delivery of. -/
theorem Covered.handled {s : Driven} (hs : s.Covered) {now : MonoTime} {event : ForwardEvent}
    {f' : Forwarder} {acts : List ForwardAction} {kept : List (ForwardTimer × MonoTime)}
    (hkept : ∀ t due, (t, due) ∈ s.waiting → event ≠ .timer t → (t, due) ∈ kept)
    (hf : s.forwarder.handle now event = some (f', acts)) :
    Covered ⟨f', kept ++ timers acts⟩ := by
  intro g batch hg
  rw [List.mem_append, ← timers_waits]
  dsimp only at hg
  have keep : ∀ {old : PendingP0Batch}, s.forwarder.pendingP0[g]? = some old →
      batch.expiresAt = old.expiresAt → event ≠ .timer (.pendingP0 g) →
      (.pendingP0 g, batch.expiresAt) ∈ kept := by
    intro old hold hexpires hother
    rw [hexpires]
    exact hkept _ _ (hs g old hold) hother
  have hpark := Forwarder.handle_parkStep hf
  generalize waits acts = w at hpark
  cases hpark with
  | same pending next stale empty =>
    rw [pending] at hg
    refine .inl (keep hg rfl fun heq => stale g heq ?_)
    exact OrdMap.mem_iff_get.mpr ⟨batch, hg⟩
  | parked link g' waiting free pending next =>
    rw [pending, OrdMap.get_insert] at hg
    split at hg
    · rename_i heq
      subst heq
      rw [← Option.some.inj hg]
      exact .inr List.mem_cons_self
    · exact .inl (keep hg rfl (by simp))
  | retried routes pending next =>
    rw [pending, Option.bind_eq_some_iff] at hg
    obtain ⟨old, hold, hs'⟩ := hg
    exact .inl (keep hold (Forwarder.survivor_spec hs').2.1 (by simp))
  | early g' batch' found wait =>
    by_cases heq : g' = g
    · subst heq
      cases found.symm.trans hg
      exact .inr List.mem_cons_self
    · exact .inl (keep hg rfl (by simpa using heq))
  | expired g' batch' found late =>
    rw [OrdMap.get_erase] at hg
    split at hg
    · cases hg
    · rename_i hne
      exact .inl (keep hg rfl (by simpa using hne))

theorem Covered.step {s s' : Driven} {input : MonoTime × DrivenInput} {acts : List ForwardAction}
    (hs : s.Covered) (h : s.step input = some (s', acts)) : s'.Covered := by
  obtain ⟨f', waiting'⟩ := s'
  obtain ⟨kept, hkept, -, hf, rfl⟩ := step_inv h
  exact hs.handled hkept hf

/-- The timers that wait are for generations below `n`, each with the deadline of its batch if that
is still parked. -/
structure Sharp (s : Driven) (n : Nat) : Prop where
  numbered : s.forwarder.Numbered n
  below : ∀ g due, (.pendingP0 g, due) ∈ s.waiting → g < n
  due : ∀ g due, (.pendingP0 g, due) ∈ s.waiting → ∀ batch, s.forwarder.pendingP0[g]? = some batch →
    due = batch.expiresAt

theorem sharp_start (me : NodeId) (routes : RouteTable) : (start me routes).Sharp 0 where
  numbered := Forwarder.numbered_new me routes
  below := fun _ _ hmem => by cases hmem
  due := fun _ _ hmem => by cases hmem

/-- `kept` are timers that waited before. -/
theorem Sharp.handled {f f' : Forwarder} {waiting kept : List (ForwardTimer × MonoTime)}
    {now : MonoTime} {event : ForwardEvent} {acts : List ForwardAction} {n : Nat}
    (hs : Sharp ⟨f, waiting⟩ n) (hn : n + f.batches event < 2 ^ 64) (hkept : kept ⊆ waiting)
    (h : f.handle now event = some (f', acts)) :
    Sharp ⟨f', kept ++ timers acts⟩ (n + f.batches event) := by
  have hnumbered := (hs.numbered.handle hn h).1
  have hold : ∀ g due, (.pendingP0 g, due) ∈ kept → g < n ∧ ∀ batch, f.pendingP0[g]? = some batch →
      due = batch.expiresAt :=
    fun g due hmem => ⟨hs.below g due (hkept hmem), hs.due g due (hkept hmem)⟩
  -- a timer that is set now, and the batches that stay
  obtain ⟨hset, hstay⟩ : (∀ g due, (.pendingP0 g, due) ∈ timers acts →
      ∃ batch, f'.pendingP0[g]? = some batch ∧ due = batch.expiresAt) ∧
      ∀ g < n, ∀ batch, f'.pendingP0[g]? = some batch →
        ∃ old, f.pendingP0[g]? = some old ∧ batch.expiresAt = old.expiresAt := by
    have hpark := Forwarder.handle_parkStep h
    rw [← timers_waits]
    generalize waits acts = w at hpark
    cases hpark with
    | same pending next stale empty =>
      rw [pending]
      exact ⟨by simp [timers], fun g _ batch hg => ⟨batch, hg, rfl⟩⟩
    | parked link g' waiting free pending next =>
      have hg' := hs.numbered.free free
      refine ⟨fun g due hmem => ?_, fun g hlt batch hg => ?_⟩
      · obtain ⟨heq, hdue⟩ := mem_timers_setTimer.mp hmem
        refine ⟨⟨satAdd now p0RouteWaitMs, f.queue link .p0⟩, ?_, hdue⟩
        rw [pending, OrdMap.get_insert, if_pos (ForwardTimer.pendingP0.inj heq).symm]
      · rw [pending, OrdMap.get_insert, if_neg (by omega)] at hg
        exact ⟨batch, hg, rfl⟩
    | retried routes pending next =>
      refine ⟨fun g due hmem => ?_, fun g _ batch hg => ?_⟩
      · obtain ⟨a, ha, hset⟩ := List.mem_filterMap.mp hmem
        obtain ⟨e, -, ha⟩ := List.mem_flatMap.mp ha
        rw [Forwarder.overdue] at ha
        split at ha
        · obtain ⟨q, -, rfl⟩ := List.mem_map.mp ha
          cases hset
        · cases ha
      · rw [pending, Option.bind_eq_some_iff] at hg
        obtain ⟨old, hold, hsurvives⟩ := hg
        exact ⟨old, hold, (Forwarder.survivor_spec hsurvives).2.1⟩
    | early g' batch found wait =>
      refine ⟨fun g due hmem => ?_, fun g _ batch hg => ⟨batch, hg, rfl⟩⟩
      obtain ⟨heq, hdue⟩ := mem_timers_setTimer.mp hmem
      exact ⟨batch, ForwardTimer.pendingP0.inj heq ▸ found, hdue⟩
    | expired g' batch found late =>
      rw [timers_expired]
      refine ⟨by simp, fun g _ batch hg => ?_⟩
      rw [OrdMap.get_erase] at hg
      split at hg
      · cases hg
      · exact ⟨batch, hg, rfl⟩
  refine ⟨hnumbered, fun g due hmem => ?_, fun g due hmem batch hg => ?_⟩
  · rcases List.mem_append.mp hmem with hmem | hmem
    · exact Nat.lt_of_lt_of_le (hold g due hmem).1 (Nat.le_add_right _ _)
    · obtain ⟨batch, hbatch, -⟩ := hset g due hmem
      exact hnumbered.below g (OrdMap.mem_iff_get.mpr ⟨batch, hbatch⟩)
  · rcases List.mem_append.mp hmem with hmem | hmem
    · obtain ⟨hlt, hdue⟩ := hold g due hmem
      obtain ⟨old, hgold, hexpires⟩ := hstay g hlt batch hg
      rw [hexpires]
      exact hdue old hgold
    · obtain ⟨batch', hbatch', hdue⟩ := hset g due hmem
      cases hbatch'.symm.trans hg
      exact hdue

theorem Sharp.run : ∀ {inputs : List (MonoTime × DrivenInput)} {s s' : Driven}
    {acts : List ForwardAction} {n : Nat}, s.Sharp n →
    n + s.forwarder.created (events inputs) < 2 ^ 64 → s.run inputs = some (s', acts) →
    s'.Sharp (n + s.forwarder.created (events inputs)) := by
  intro inputs
  induction inputs with
  | nil =>
    intro s s' acts n hs _ h
    cases h
    exact hs
  | cons input inputs ih =>
    intro s s' acts n hs hn h
    obtain ⟨⟨f1, waiting1⟩, out, rest, h1, h2, -⟩ := emitAll_cons_inv h
    obtain ⟨kept, -, hsub, hf, rfl⟩ := step_inv h1
    have hcreated : s.forwarder.created (events (input :: inputs)) =
        s.forwarder.batches input.2.seen + f1.created (events inputs) := by
      simp only [events, List.map_cons, Forwarder.created, hf]
    rw [hcreated] at hn ⊢
    have hs1 := Sharp.handled hs (by omega) hsub hf
    have hs' := ih hs1 (by rw [Nat.add_assoc]; exact hn) h2
    rw [Nat.add_assoc] at hs'
    exact hs'

/-! ## The main result -/

/-- A packet that is given up was parked, and its deadline has passed. -/
theorem expired_of_drop {f f' : Forwarder} {now : MonoTime} {event : ForwardEvent}
    {acts : List ForwardAction} {packet : ForwardPacket} (h : f.handle now event = some (f', acts))
    (hdrop : .drop .routeWaitExpired packet ∈ acts) :
    ∃ (g : Nat) (batch : PendingP0Batch), f.pendingP0[g]? = some batch ∧ batch.expiresAt ≤ now ∧
      ∃ q ∈ batch.packets, q.packet = packet := by
  have hwait : .drop .routeWaitExpired packet ∈ waits acts := List.mem_filter.mpr ⟨hdrop, rfl⟩
  have hpark := Forwarder.handle_parkStep h
  generalize waits acts = w at hpark hwait
  have found : ∀ {batch : PendingP0Batch},
      .drop .routeWaitExpired packet ∈
        Forwarder.dropQueuedPackets batch.packets .routeWaitExpired →
      ∃ q ∈ batch.packets, q.packet = packet := by
    intro batch hmem
    obtain ⟨q, hq, heq⟩ := List.mem_map.mp hmem
    cases heq
    exact ⟨q, hq, rfl⟩
  cases hpark with
  | same pending next stale empty => cases hwait
  | parked link g' waiting free pending next => simp at hwait
  | retried routes pending next =>
    obtain ⟨⟨g, batch⟩, he, hmem⟩ := List.mem_flatMap.mp hwait
    rw [Forwarder.overdue] at hmem
    split at hmem
    · rename_i hlate
      exact ⟨g, batch, OrdMap.mem_toList.mp he, hlate, found hmem⟩
    · cases hmem
  | early g' batch hbatch wait => simp at hwait
  | expired g' batch hbatch late => exact ⟨g', batch, hbatch, late, found hwait⟩

theorem handle_timer_late {f f' : Forwarder} {now : MonoTime} {g : Nat}
    {acts : List ForwardAction} (h : f.handle now (.timer (.pendingP0 g)) = some (f', acts))
    (hlate : ∀ batch, f.pendingP0[g]? = some batch → batch.expiresAt ≤ now) :
    g ∉ f'.pendingP0 := by
  have hpark := Forwarder.handle_parkStep h
  generalize waits acts = w at hpark
  cases hpark with
  | same pending next stale empty =>
    rw [pending]
    exact stale g rfl
  | early _ batch found wait => exact absurd (hlate batch found) (Nat.not_le.mpr wait)
  | expired _ batch found late => simp

/-- A timer for a batch that is not parked does nothing. -/
theorem handle_timer_stale {f : Forwarder} {g : Nat} (h : g ∉ f.pendingP0) (now : MonoTime) :
    f.handle now (.timer (.pendingP0 g)) = some (f, []) := by
  have hnone : f.pendingP0[g]? = none := Std.ExtTreeMap.getElem?_eq_none h
  simp only [Forwarder.handle, Forwarder.handleTimer, hnone]

/-- In every state of every run in which a timer is delivered once at most, early, in time or late:
every parked batch waits for a timer with its deadline; a packet is given up only if it was parked
when a link failed at least 2000 ms before; and a timer that comes at or after the deadline of its
batch leaves no packet of it parked.

While fewer than `2 ^ 64` batches were created, that deadline is the one the timer was set for, and
a batch that is gone has left its generation for good: a timer for it does nothing. -/
theorem parked_covered {me : NodeId} {routes : RouteTable}
    {inputs : List (MonoTime × DrivenInput)} {s : Driven} {acts : List ForwardAction}
    (htimes : ∀ input ∈ inputs, input.1 + p0RouteWaitMs < 2 ^ 64)
    (h : (start me routes).run inputs = some (s, acts)) :
    (∀ (g : Nat) batch, s.forwarder.pendingP0[g]? = some batch →
      (.pendingP0 g, batch.expiresAt) ∈ s.waiting) ∧
    (∀ input s' out packet, s.step input = some (s', out) →
      .drop .routeWaitExpired packet ∈ out →
      ∃ g batch q, s.forwarder.pendingP0[g]? = some batch ∧ q ∈ batch.packets ∧
        q.packet = packet ∧ ∃ x : Forwarder.Failure,
          x.Parked (.new me routes) (events inputs) s.forwarder g batch ∧
          x.time + p0RouteWaitMs ≤ input.1) ∧
    (∀ (g : Nat) batch now due s' out, s.forwarder.pendingP0[g]? = some batch →
      batch.expiresAt ≤ now → s.step (now, .fire (.pendingP0 g) due) = some (s', out) →
      g ∉ s'.forwarder.pendingP0) ∧
    ((Forwarder.new me routes).created (events inputs) < 2 ^ 64 →
      (∀ g due now s' out, due ≤ now →
        s.step (now, .fire (.pendingP0 g) due) = some (s', out) → g ∉ s'.forwarder.pendingP0) ∧
      ∀ before mid after s0 s1 out0 out1 g, inputs = before ++ mid ++ after →
        (start me routes).run before = some (s0, out0) → s0.run mid = some (s1, out1) →
        g ∈ s0.forwarder.pendingP0 → g ∉ s1.forwarder.pendingP0 →
        g ∉ s.forwarder.pendingP0 ∧
          ∀ now, s.forwarder.handle now (.timer (.pendingP0 g)) = some (s.forwarder, [])) := by
  have hrun := run_events h
  refine ⟨?_, ?_, ?_, fun hcreated => ⟨?_, ?_⟩⟩
  · have hstart : (start me routes).Covered := fun g batch hg => by
      simp [start, Forwarder.new] at hg
    exact emitAll_inv (fun _ _ _ _ hs hstep => hs.step hstep) hstart h
  · intro input s' out packet hstep hdrop
    obtain ⟨kept, -, -, hf, -⟩ := step_inv hstep
    obtain ⟨g, batch, hbatch, hlate, q, hq, rfl⟩ := expired_of_drop hf hdrop
    obtain ⟨x, hx⟩ := Forwarder.run_failed rfl _ hrun hbatch
    refine ⟨g, batch, q, hbatch, hq, rfl, x, hx, ?_⟩
    have hmem : (x.time, ForwardEvent.linkDown x.link) ∈ events inputs := by
      rw [hx.events]
      simp
    obtain ⟨input', hinput', heq⟩ := List.mem_map.mp hmem
    have htime : input'.1 = x.time := congrArg Prod.fst heq
    have hbound := htimes input' hinput'
    rw [htime] at hbound
    rw [hx.expires, satAdd_eq (Nat.le_pred_of_lt hbound)] at hlate
    exact hlate
  · intro g batch now due s' out hbatch hlate hstep
    obtain ⟨kept, -, -, hf, -⟩ := step_inv hstep
    refine handle_timer_late hf fun batch' hbatch' => ?_
    cases hbatch.symm.trans hbatch'
    exact hlate
  · intro g due now s' out hdue hstep
    have hsharp := (sharp_start me routes).run (by rw [Nat.zero_add]; exact hcreated) h
    obtain ⟨kept, -, -, hf, -⟩ := step_inv hstep
    refine handle_timer_late hf fun batch hbatch => ?_
    rw [← hsharp.due g due (mem_waiting_of_fire hstep) batch hbatch]
    exact hdue
  · intro before mid after s0 s1 out0 out1 g hinputs h0 h1 hparked hgone
    subst hinputs
    obtain ⟨s1', out, rest, h01, h2, -⟩ := emitAll_append_inv h
    have hs1 : s1' = s1 :=
      congrArg Prod.fst (Option.some.inj (h01.symm.trans (emitAll_append_some h0 h1)))
    subst hs1
    have hall : (Forwarder.new me routes).created (events (before ++ mid ++ after)) =
        (Forwarder.new me routes).created (events before) +
          s0.forwarder.created (events mid) + s1'.forwarder.created (events after) := by
      have h0' : (Forwarder.new me routes).run (events before) = some (s0.forwarder, out0) :=
        run_events h0
      rw [events_append, events_append, List.append_assoc, Forwarder.created_append h0',
        Forwarder.created_append (run_events h1), Nat.add_assoc]
    rw [hall] at hcreated
    have hnumbered := (Forwarder.numbered_new me routes).run (by omega) (run_events h0)
    rw [Nat.zero_add] at hnumbered
    have hlt := hnumbered.1.below g hparked
    have hnumbered1 := (hnumbered.1.run (by omega) (run_events h1)).1
    have hstill := (hnumbered1.run hcreated (run_events h2)).2 g (by omega) hgone
    exact ⟨hstill, handle_timer_stale hstill⟩

/-- A P0 packet waits on link 7 when it fails at 2; its timer is delivered once too early and then
at 2002. -/
theorem parked_covered_expired : ∃ s acts s' out packet, ∃ x : Forwarder.Failure,
    (start (.ofByte 1) Forwarder.sampleRoutes).run
      [(0, .event Forwarder.urgent), (2, .event (.linkDown 7)), (100, .fire (.pendingP0 0) 2002)] =
        some (s, acts) ∧
    (.pendingP0 0, 2002) ∈ s.waiting ∧
    s.step (2002, .fire (.pendingP0 0) 2002) = some (s', out) ∧
    .drop .routeWaitExpired packet ∈ out ∧ x.time + 2000 ≤ 2002 ∧
    0 ∉ s'.forwarder.pendingP0 := by
  have h : (((start (.ofByte 1) Forwarder.sampleRoutes).run
      [(0, .event Forwarder.urgent), (2, .event (.linkDown 7)),
        (100, .fire (.pendingP0 0) 2002)]).bind fun r =>
      (r.1.step (2002, .fire (.pendingP0 0) 2002)).map fun t =>
        decide ((.pendingP0 0, 2002) ∈ r.1.waiting ∧
          ∃ packet ∈ refused t.2, .drop .routeWaitExpired packet ∈ t.2)) = some true := by
    decide +kernel
  simp only [Option.bind_eq_some_iff, Option.map_eq_some_iff] at h
  obtain ⟨⟨s, acts⟩, hrun, ⟨s', out⟩, hstep, hall⟩ := h
  obtain ⟨hwaiting, packet, -, hdrop⟩ := of_decide_eq_true hall
  obtain ⟨-, hearly, -, hgone⟩ := parked_covered (by decide) hrun
  obtain ⟨g, batch, q, -, -, -, x, -, htime⟩ := hearly _ _ _ packet hstep hdrop
  have hcreated : (Forwarder.new (.ofByte 1) Forwarder.sampleRoutes).created
      (events [(0, .event Forwarder.urgent), (2, .event (.linkDown 7)),
        (100, .fire (.pendingP0 0) 2002)]) < 2 ^ 64 := by
    decide +kernel
  exact ⟨s, acts, s', out, packet, x, hrun, hwaiting, hstep, hdrop, htime,
    (hgone hcreated).1 0 2002 2002 s' out (Nat.le_refl _) hstep⟩

end Driven
end Forward
end MeshBus
