import MeshBus.Lib.Emit
import MeshBus.Runtime.Advertise
import MeshBus.Runtime.Live
import MeshBus.Runtime.Prost
import MeshBus.Transport.Worker

/-!
# Transport.Node

One node with its bounded queues: the runtime loop, which executes the effects of one input before
it takes the next, one `run_link` task for every link with a command queue of 8, and one event queue
of 256 for all of them. Every peer reads what is written to it, and the application takes all
outcomes. The loop waits for room in a command queue, and the task that would make room may wait
for room in the event queue, which only the loop empties.
-/

namespace MeshBus
namespace Transport

open Wire MeshBus.Runtime PubSub Control

/-- Where the loop is. The flag is false when it returns after these effects. -/
inductive LoopPhase where
  | idle
  | executing (effects : List Effect) (continues : Bool)
  /-- It holds the sender of a link and awaits room in its command queue. -/
  | sending (link : LinkId) (command : LinkCommand) (effects : List Effect) (continues : Bool)
  | returned

structure Node where
  rt : RuntimeState
  phase : LoopPhase
  events : List LinkEvent
  workers : OrdMap LinkId Worker

inductive NodeStep where
  /-- A connection to a peer is made; these bytes came behind its hello. -/
  | attach (link : LinkId) (peer : NodeId) (buffered : Bytes)
  /-- The loop takes an input of the application or a timer. -/
  | input (outside : Outside) (input : RuntimeInput)
  /-- The loop takes the head of the event queue. -/
  | event (outside : Outside)
  /-- The loop goes on with the effects. -/
  | execute
  | work (link : LinkId) (step : WorkerStep)

namespace Node

def start (me : NodeId) (epoch : UInt32) (persistedSeq : UInt64) (policies : TopicPolicies) :
    Node where
  rt := .spawn me epoch persistedSeq policies
  phase := .idle
  events := []
  workers := ∅

/-- The loop takes an input: its effects are executed next. -/
def begin (build : Build) (n : Node) (outside : Outside) (input : RuntimeInput) : Option Node := do
  let (rt, effects, continues) ← n.rt.iterate build outside input
  some { n with rt := rt, phase := .executing effects continues }

/-- The command an effect puts into the queue of a link. -/
def commandOf : Effect → Option (LinkId × LinkCommand)
  | .send link frame => some (link, .send frame)
  | .close link => some (link, .close)
  | .schedule _ _ | .persist _ | .forwardOutcome _ | .pubSubOutcome _ => none

def execute (n : Node) : Option Node :=
  match n.phase with
  | .executing [] continues => some { n with phase := if continues then .idle else .returned }
  | .executing (effect :: effects) continues =>
    match commandOf effect with
    | none => some { n with phase := .executing effects continues }
    | some (link, command) =>
      -- an unknown link is an error, and closing it is one more
      if (n.workers[link]?.map Worker.registered).getD false then
        some { n with phase := .sending link command effects continues }
      else some { n with phase := .executing effects continues }
  | .sending link command effects continues =>
    match n.workers[link]? with
    | none => none
    | some w =>
      match w.phase with
      -- the task is done and its queue closed
      | .gone | .withdrawn => some { n with phase := .executing effects continues }
      | _ =>
        if w.commands.length < linkQueueCapacity then
          some
            { n with
              phase := .executing effects continues
              workers := n.workers.insert link { w with commands := w.commands ++ [command] } }
        else none
  | .idle | .returned => none

/-- A task hands an event over only while the queue has room; the loop holds the receiver until it
returns. -/
def work (n : Node) (link : LinkId) (s : WorkerStep) : Option Node := do
  let w ← n.workers[link]?
  let w' ← w.step s
  match s with
  | .emitted =>
    if n.events.length < eventQueueCapacity then
      some
        { n with
          events := n.events ++ w.event?.toList
          workers := n.workers.insert link w' }
    else none
  | .closed =>
    match n.phase with
    | .returned => some { n with workers := n.workers.insert link w' }
    | _ => none
  | _ => some { n with workers := n.workers.insert link w' }

def step (build : Build) (n : Node) : NodeStep → Option Node
  | .attach link peer buffered =>
    -- link ids are never used twice
    if link ∈ n.workers then none
    else some { n with workers := n.workers.insert link (.attach link peer buffered) }
  | .input outside input =>
    match n.phase, input with
    | .idle, .forward _ | .idle, .pubSub _ | .idle, .timer _ => n.begin build outside input
    | _, _ => none
  | .event outside =>
    match n.phase, n.events with
    | .idle, event :: events => { n with events := events }.begin build outside (.link event)
    | _, _ => none
  | .execute => n.execute
  | .work link s => n.work link s

def run (build : Build) (n : Node) (steps : List NodeStep) : Option Node :=
  steps.foldlM (step build) n

/-! ## Waiting -/

/-- How many commands wait in the queue of a link. -/
def queued (n : Node) (link : LinkId) : Nat :=
  (n.workers[link]?.map fun w => w.commands.length).getD 0

/-- The loop waits for room in the full command queue of a link whose task waits for room in the
full event queue. -/
def stuck (n : Node) : Bool :=
  match n.phase with
  | .sending link _ _ _ =>
    match n.workers[link]? with
    | some w => linkQueueCapacity ≤ w.commands.length && w.event?.isSome &&
        eventQueueCapacity ≤ n.events.length
    | none => false
  | _ => false

/-- How many commands the effects put into the queue of a link. -/
def requested (effects : List Effect) (link : LinkId) : Nat :=
  (effects.filterMap commandOf).countP fun x => x.1 = link

/-- The queues have room for what an input makes the loop put into them. -/
def hasRoom (build : Build) (n : Node) (outside : Outside) (input : RuntimeInput) : Bool :=
  match n.rt.iterate build outside input with
  | none => true
  | some (_, effects, _) =>
    (effects.filterMap commandOf).all fun x =>
      n.queued x.1 + requested effects x.1 ≤ linkQueueCapacity

def roomy (build : Build) (n : Node) : NodeStep → Bool
  | .input outside input => n.hasRoom build outside input
  | .event outside =>
    match n.events with
    | event :: _ => n.hasRoom build outside (.link event)
    | [] => true
  | _ => true

/-! ## The loop never waits -/

/-- How many commands the loop is still going to put into the queue of a link. -/
def awaited (phase : LoopPhase) (link : LinkId) : Nat :=
  match phase with
  | .executing effects _ => requested effects link
  | .sending l _ effects _ => (if l = link then 1 else 0) + requested effects link
  | .idle | .returned => 0

/-- What is queued and what is still to be queued fits, on every link. -/
def Fits (n : Node) : Prop :=
  ∀ link, n.queued link + awaited n.phase link ≤ linkQueueCapacity

theorem fits_start (me : NodeId) (epoch : UInt32) (persistedSeq : UInt64)
    (policies : TopicPolicies) : Fits (start me epoch persistedSeq policies) := by
  intro link
  simp [start, queued, awaited]

theorem Fits.not_stuck {n : Node} (h : Fits n) : n.stuck = false := by
  by_contra hstuck
  simp only [Bool.not_eq_false, stuck] at hstuck
  split at hstuck
  · rename_i link command effects continues hphase
    split at hstuck
    · rename_i w hw
      simp only [Bool.and_eq_true, decide_eq_true_eq] at hstuck
      have hfits := h link
      simp only [queued, hw, awaited, hphase, if_true, Option.map_some, Option.getD_some] at hfits
      omega
    · cases hstuck
  · cases hstuck

theorem requested_cons_none {effect : Effect} (h : commandOf effect = none) (effects : List Effect)
    (link : LinkId) : requested (effect :: effects) link = requested effects link := by
  simp only [requested, List.filterMap_cons, h]

theorem requested_cons_some {effect : Effect} {l : LinkId} {command : LinkCommand}
    (h : commandOf effect = some (l, command)) (effects : List Effect) (link : LinkId) :
    requested (effect :: effects) link =
      (if l = link then 1 else 0) + requested effects link := by
  simp only [requested, List.filterMap_cons, h, List.countP_cons, decide_eq_true_eq]
  omega

theorem queued_insert {n : Node} {link l : LinkId} {w : Worker} {phase : LoopPhase}
    {events : List LinkEvent} :
    queued { n with phase := phase, events := events, workers := n.workers.insert link w } l =
      if link = l then w.commands.length else n.queued l := by
  simp only [queued, OrdMap.get_insert]
  split <;> rfl

theorem queued_of_get {n : Node} {link : LinkId} {w : Worker} (h : n.workers[link]? = some w) :
    n.queued link = w.commands.length := by
  simp only [queued, h, Option.map_some, Option.getD_some]

theorem Fits.begin {build : Build} {n n' : Node} (h : Fits n) {outside : Outside}
    {input : RuntimeInput} (hroom : n.hasRoom build outside input = true)
    (hbegin : n.begin build outside input = some n') : Fits n' := by
  simp only [Node.begin, bind, Option.bind_eq_some_iff] at hbegin
  obtain ⟨⟨rt, effects, continues⟩, hiterate, heq⟩ := hbegin
  cases heq
  simp only [hasRoom, hiterate, List.all_eq_true, decide_eq_true_eq] at hroom
  intro link
  change n.queued link + requested effects link ≤ linkQueueCapacity
  by_cases hnone : requested effects link = 0
  · have := h link
    omega
  · obtain ⟨x, hx, hlink⟩ := List.countP_pos_iff.mp (Nat.pos_of_ne_zero hnone)
    rw [← of_decide_eq_true hlink]
    exact hroom x hx

theorem Fits.execute {n n' : Node} (h : Fits n) (hexecute : n.execute = some n') : Fits n' := by
  simp only [Node.execute] at hexecute
  split at hexecute
  · -- the last effect was executed
    cases hexecute
    intro link
    have := h link
    simp only [queued] at this ⊢
    split <;> simp only [awaited] <;> omega
  · rename_i effect effects continues hphase
    split at hexecute
    · rename_i hnone
      cases hexecute
      intro link
      have := h link
      simp only [awaited, hphase, requested_cons_none hnone] at this
      exact this
    · rename_i l command hsome
      have hcount : ∀ link, n.queued link + ((if l = link then 1 else 0) + requested effects link) ≤
          linkQueueCapacity := by
        intro link
        have := h link
        simp only [awaited, hphase, requested_cons_some hsome] at this
        exact this
      split at hexecute
      · cases hexecute
        exact hcount
      · cases hexecute
        intro link
        have := hcount link
        change n.queued link + requested effects link ≤ linkQueueCapacity
        omega
  · rename_i l command effects continues hphase
    have hcount : ∀ link, n.queued link + ((if l = link then 1 else 0) + requested effects link) ≤
        linkQueueCapacity := by
      intro link
      have := h link
      simp only [awaited, hphase] at this
      exact this
    have hrefused : Fits { n with phase := .executing effects continues } := by
      intro link
      have := hcount link
      change n.queued link + requested effects link ≤ linkQueueCapacity
      omega
    split at hexecute
    · cases hexecute
    · rename_i w hw
      split at hexecute
      · cases hexecute
        exact hrefused
      · cases hexecute
        exact hrefused
      · split at hexecute
        · cases hexecute
          intro link
          have := hcount link
          rw [queued_insert]
          simp only [awaited]
          by_cases hl : l = link
          · subst hl
            rw [queued_of_get hw, if_pos rfl] at this
            rw [if_pos rfl, List.length_append, List.length_singleton]
            omega
          · rw [if_neg hl] at this ⊢
            omega
        · cases hexecute
  · cases hexecute
  · cases hexecute

theorem Fits.work {n n' : Node} (h : Fits n) {link : LinkId} {s : WorkerStep}
    (hwork : n.work link s = some n') : Fits n' := by
  simp only [Node.work, bind, Option.bind_eq_some_iff] at hwork
  obtain ⟨w, hw, w', hstep, hwork⟩ := hwork
  have hle : w'.commands.length ≤ w.commands.length := by
    rcases Worker.step_commands hstep with heq | ⟨command, heq⟩
    · exact le_of_eq (congrArg List.length heq)
    · rw [heq, List.length_cons]
      omega
  have hafter : ∀ events,
      Fits { n with events := events, workers := n.workers.insert link w' } := by
    intro events l
    have := h l
    rw [queued_insert]
    split
    · rename_i hl
      subst hl
      rw [queued_of_get hw] at this
      simp only
      omega
    · exact this
  split at hwork
  · split at hwork <;> cases hwork
    exact hafter _
  · split at hwork <;> cases hwork
    exact hafter n.events
  · cases hwork
    exact hafter n.events

theorem Fits.step {build : Build} {n n' : Node} {s : NodeStep} (h : Fits n)
    (hroomy : n.roomy build s = true) (hstep : n.step build s = some n') : Fits n' := by
  cases s with
  | attach link peer buffered =>
    simp only [Node.step] at hstep
    split at hstep
    · cases hstep
    · cases hstep
      intro l
      have := h l
      rw [queued_insert]
      split
      · simp only [Worker.attach, List.length_nil]
        omega
      · exact this
  | input outside input =>
    simp only [Node.step] at hstep
    split at hstep
    · exact h.begin hroomy hstep
    · exact h.begin hroomy hstep
    · exact h.begin hroomy hstep
    · cases hstep
  | event outside =>
    simp only [Node.step] at hstep
    split at hstep
    · rename_i event events hphase hevents
      simp only [roomy, hevents] at hroomy
      have hsame : Fits { n with events := events } := h
      exact hsame.begin hroomy hstep
    · cases hstep
  | execute => exact h.execute hstep
  | work link s => exact h.work hstep

/-- While no input makes the loop put more commands into a queue than it has room for, the loop
and a task never wait for each other. -/
theorem loop_not_stuck (build : Build) (me : NodeId) (epoch : UInt32) (persistedSeq : UInt64)
    (policies : TopicPolicies) (steps : List NodeStep) (n : Node)
    (hroomy : AlongM (step build) (fun n s => n.roomy build s = true)
      (start me epoch persistedSeq policies) steps)
    (hrun : (start me epoch persistedSeq policies).run build steps = some n) :
    n.stuck = false := by
  have hfits : Fits n :=
    hroomy.inv (fun _ _ _ h hs hstep => h.step hs hstep) (fits_start me epoch persistedSeq policies)
      hrun
  exact hfits.not_stuck

/-! ## A node that is stuck -/

def plainBuild : Build := ⟨Proto.readers, fun _ => none, true⟩

/-- Node 2 connects over link 7; the loop takes the `Up` and sends its LSA and its digest. -/
def comesUp : List NodeStep :=
  [.attach 7 (.ofByte 2) [], .work 7 .emitted, .work 7 .decode, .event (Linked.beside 0)] ++
    List.replicate 10 .execute

/-- The application subscribes to topic `i`; the loop sends its new LSA. -/
def subscribes (i : UInt8) : NodeStep :=
  .input (Linked.beside 1) (.pubSub (.localSubscribe i.toNat (allOf i)))

/-- The task has taken one of the two frames before the subscription. -/
def quietSteps : List NodeStep :=
  comesUp ++ [.work 7 .take, subscribes 1] ++ List.replicate 6 .execute

theorem loop_not_stuck_quiet :
    ∃ n, (start (.ofByte 1) 1 0 .empty).run plainBuild quietSteps = some n ∧
      n.queued 7 = 2 ∧ n.stuck = false := by
  have hqueued : (((start (.ofByte 1) 1 0 .empty).run plainBuild quietSteps).map fun n =>
      n.queued 7) = some 2 := by
    decide +kernel
  obtain ⟨n, hrun, hn⟩ := Option.map_eq_some_iff.mp hqueued
  exact ⟨n, hrun, hn, loop_not_stuck plainBuild (.ofByte 1) 1 0 .empty quietSteps n
    (by decide +kernel) hrun⟩

/-- An empty digest. -/
def digestFrame : WireFrame := .control .digest []

/-- The task reads a frame and hands it over. -/
def handsOver : List NodeStep :=
  [.work 7 (.read (frameBytes digestFrame)), .work 7 .decode, .work 7 .emitted, .work 7 .decode]

/-- A task that waits in its `select` hands the frame over and waits again. -/
theorem run_handsOver {build : Build} {n : Node} {commands : List LinkCommand}
    (hw : n.workers[(7 : LinkId)]? = some ⟨7, .selecting, [], commands⟩)
    (hroom : n.events.length < eventQueueCapacity) :
    n.run build handsOver = some { n with events := n.events ++ [.frame 7 digestFrame] } := by
  have hread : Worker.step ⟨7, .selecting, [], commands⟩ (.read (frameBytes digestFrame)) =
      some ⟨7, .decoding, frameBytes digestFrame, commands⟩ := rfl
  have hdecode : Worker.step ⟨7, .decoding, frameBytes digestFrame, commands⟩ .decode =
      some ⟨7, .emitting (.frame 7 digestFrame), [], commands⟩ := by
    have hframe := FrameDecoder.decode_frameBytes
      (show digestFrame.payload.length ≤ maxPayloadLen by decide) []
    rw [List.append_nil] at hframe
    simp only [Worker.step, hframe]
  have hemitted : Worker.step ⟨7, .emitting (.frame 7 digestFrame), [], commands⟩ .emitted =
      some ⟨7, .decoding, [], commands⟩ := rfl
  have hnone : Worker.step ⟨7, .decoding, [], commands⟩ .decode =
      some ⟨7, .selecting, [], commands⟩ := rfl
  simp only [run, handsOver, List.foldlM_cons, List.foldlM_nil, step, work, bind, hw, hread,
    hdecode, hemitted, hnone, OrdMap.get_insert, if_true, Option.bind_some, if_pos hroom,
    Worker.event?, Option.toList_some, OrdMap.insert_insert, OrdMap.insert_eq_self hw]
  rfl

/-- The event queue can be filled with frames of one link. -/
theorem run_flood {build : Build} {commands : List LinkCommand} : ∀ (k : Nat) (n : Node),
    n.workers[(7 : LinkId)]? = some ⟨7, .selecting, [], commands⟩ →
    n.events.length + k ≤ eventQueueCapacity →
    n.run build (List.replicate k handsOver).flatten =
      some { n with events := n.events ++ List.replicate k (.frame 7 digestFrame) } := by
  intro k
  induction k with
  | zero =>
    intro n _ _
    simp [run]
  | succ k ih =>
    intro n hw hroom
    have hone : n.run build handsOver = _ := run_handsOver hw (by omega)
    have hrest := ih { n with events := n.events ++ [.frame 7 digestFrame] } hw
      (by simp only [List.length_append, List.length_singleton]; omega)
    rw [List.replicate_succ, List.flatten_cons, run, List.foldlM_append, ← run, hone]
    rw [run] at hrest
    simp only [bind, Option.bind_some, hrest, List.append_assoc, List.singleton_append,
      List.replicate_succ]

/-- Node 2 sends 257 digests before the loop takes its next input. -/
def floods : List NodeStep := comesUp ++ (List.replicate 256 handsOver).flatten

/-- The task has one more frame, and the application subscribes to seven topics. -/
def subscribesOften : List NodeStep :=
  [.work 7 (.read (frameBytes digestFrame)), .work 7 .decode] ++
    ([0, 1, 2, 3, 4, 5].flatMap fun i => subscribes i :: List.replicate 6 .execute) ++
    [subscribes 6, .execute, .execute]

/-- The loop waits for room in the command queue of link 7, and its task for room in the event
queue. -/
theorem loop_and_task_stuck :
    ∃ n, (start (.ofByte 1) 1 0 .empty).run plainBuild (floods ++ subscribesOften) = some n ∧
      n.stuck = true := by
  have hup : (((start (.ofByte 1) 1 0 .empty).run plainBuild comesUp).bind fun n =>
      n.workers[(7 : LinkId)]?.bind fun w =>
        (run plainBuild { n with events := List.replicate 256 (.frame 7 digestFrame) }
          subscribesOften).map fun n' =>
            (n.events.length, w.link, w.isSelecting, w.buffered, n'.stuck)) =
      some (0, 7, true, [], true) := by
    decide +kernel
  obtain ⟨n1, hrun1, hup⟩ := Option.bind_eq_some_iff.mp hup
  obtain ⟨⟨link, phase, buffered, commands⟩, hw, hup⟩ := Option.bind_eq_some_iff.mp hup
  obtain ⟨n2, hrun2, hfacts⟩ := Option.map_eq_some_iff.mp hup
  simp only [Prod.mk.injEq] at hfacts
  obtain ⟨hevents, rfl, hphase, rfl, hstuck⟩ := hfacts
  have hphase : phase = .selecting := Worker.isSelecting_iff.mp hphase
  subst hphase
  have hflood : n1.run plainBuild _ = _ := run_flood 256 n1 hw (by rw [hevents]; decide)
  rw [List.length_eq_zero_iff.mp hevents, List.nil_append] at hflood
  refine ⟨n2, ?_, hstuck⟩
  simp only [run, floods, List.foldlM_append, bind] at hrun1 hflood hrun2 ⊢
  rw [hrun1, Option.bind_some, hflood, Option.bind_some, hrun2]

end Node
end Transport
end MeshBus
