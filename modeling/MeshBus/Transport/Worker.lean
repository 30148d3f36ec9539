import MeshBus.Runtime.Loop

/-!
# Transport.Worker

`run_link` of `mb-transport`: the task that serves one link. It decodes what it has read and hands
every frame to the event queue, then waits for a command, for bytes or for the end; a frame it is
given it writes out before it does anything else. Once the receiver of the event queue is dropped,
every `events.send` fails and the task leaves. Everything it waits for comes from outside, so a step
names what happened (`WorkerStep`), and the queues and the socket decide whether it may.
-/

namespace MeshBus
namespace Transport

open Wire MeshBus.Runtime

def linkQueueCapacity : Nat := 8

def eventQueueCapacity : Nat := 256

inductive LinkCommand where
  | send (frame : WireFrame)
  | close

/-- Where the task is. -/
inductive Phase where
  /-- `attach_stream` has entered the link and awaits `events.send(Up)`. -/
  | announcing (peer : NodeId)
  /-- That send has failed: `attach_stream` awaits `remove_link`. -/
  | withdrawing
  /-- `attach_stream` has returned `LinkClosed`; there is no task. -/
  | withdrawn
  /-- The loop over `decoder.decode`. -/
  | decoding
  /-- It awaits `events.send` of a `Frame` or a `Sent`. -/
  | emitting (event : LinkEvent)
  | selecting
  /-- It awaits `write_all`; these bytes are not written yet. -/
  | writing (frame : WireFrame) (rest : Bytes)
  /-- It has left the loop and awaits `remove_link`. -/
  | leaving
  /-- The link is removed; it awaits `events.send(Down)`. -/
  | departing
  | gone

structure Worker where
  link : LinkId
  phase : Phase
  buffered : Bytes
  commands : List LinkCommand

/-- What the task has waited for and got. -/
inductive WorkerStep where
  | decode
  /-- The event queue took the event. -/
  | emitted
  /-- `events.send` failed: the queue is closed. -/
  | closed
  /-- The head of the command queue. -/
  | take
  /-- The socket took `n` bytes. -/
  | wrote (n : Nat)
  /-- The socket gave these bytes; none is the end of the stream. -/
  | read (bytes : Bytes)
  /-- The shutdown signal, or an error of the socket. -/
  | fail
  /-- `remove_link`. -/
  | remove

namespace Worker

/-- A task as `attach_stream` makes it, with the bytes that came behind the hello. -/
def attach (link : LinkId) (peer : NodeId) (buffered : Bytes) : Worker :=
  ⟨link, .announcing peer, buffered, []⟩

def sentEvent (link : LinkId) (frame : WireFrame) : LinkEvent :=
  .sent link frame.frameType frame.channel frame.payload.length

/-- The event the task waits to hand over. -/
def event? (w : Worker) : Option LinkEvent :=
  match w.phase with
  | .announcing peer => some (.up w.link peer)
  | .emitting event => some event
  | .departing => some (.down w.link)
  | .withdrawing | .withdrawn | .decoding | .selecting | .writing _ _ | .leaving | .gone => none

/-- The bytes the task waits to write. -/
def unwritten (w : Worker) : Bytes :=
  match w.phase with
  | .writing _ rest => rest
  | _ => []

/-- Whether the endpoint still knows the link. -/
def registered (w : Worker) : Bool :=
  match w.phase with
  | .departing | .gone | .withdrawn => false
  | _ => true

def step (w : Worker) : WorkerStep → Option Worker
  | .decode =>
    match w.phase with
    | .decoding =>
      match FrameDecoder.decode w.buffered with
      | .ok (some (frame, rest)) =>
        some { w with phase := .emitting (.frame w.link frame), buffered := rest }
      | .ok none => some { w with phase := .selecting }
      | .error _ => some { w with phase := .leaving }
    | _ => none
  | .emitted =>
    match w.phase with
    | .announcing _ | .emitting _ => some { w with phase := .decoding }
    | .departing => some { w with phase := .gone }
    | _ => none
  | .closed =>
    match w.phase with
    | .announcing _ => some { w with phase := .withdrawing }
    | .emitting _ => some { w with phase := .leaving }
    | .departing => some { w with phase := .gone }
    | _ => none
  | .take =>
    match w.phase, w.commands with
    | .selecting, .send frame :: commands =>
      match FrameEncoder.encode frame with
      | .ok encoded => some { w with phase := .writing frame encoded, commands := commands }
      | .error _ => some { w with phase := .leaving, commands := commands }
    | .selecting, .close :: commands => some { w with phase := .leaving, commands := commands }
    | _, _ => none
  | .wrote n =>
    match w.phase with
    | .writing frame rest =>
      if 0 < n ∧ n < rest.length then some { w with phase := .writing frame (rest.drop n) }
      else if n = rest.length then some { w with phase := .emitting (sentEvent w.link frame) }
      else none
    | _ => none
  | .read bytes =>
    match w.phase with
    | .selecting =>
      if bytes.isEmpty then some { w with phase := .leaving }
      else some { w with phase := .decoding, buffered := w.buffered ++ bytes }
    | _ => none
  | .fail =>
    match w.phase with
    | .selecting | .writing _ _ => some { w with phase := .leaving }
    | _ => none
  | .remove =>
    match w.phase with
    | .leaving => some { w with phase := .departing }
    | .withdrawing => some { w with phase := .withdrawn }
    | _ => none

def isWriting (w : Worker) : Bool :=
  match w.phase with
  | .writing _ _ => true
  | _ => false

def isSelecting (w : Worker) : Bool :=
  match w.phase with
  | .selecting => true
  | _ => false

theorem isSelecting_iff {w : Worker} : w.isSelecting = true ↔ w.phase = .selecting := by
  simp only [isSelecting]
  split
  · rename_i h
    simp [h]
  · rename_i h
    simp only [Bool.false_eq_true, false_iff]
    exact h

/-- What a step does to the bytes that wait to be written. -/
inductive Writes (w : Worker) : WorkerStep → Worker → Prop
  | starts {frame : WireFrame} {commands : List LinkCommand} {w' : Worker}
      (taken : w.commands = .send frame :: commands) (bytes : w'.unwritten = frameBytes frame) :
      Writes w .take w'
  | goesOn {n : Nat} {w' : Worker} (writing : w.isWriting = true) (lt : n < w.unwritten.length)
      (bytes : w'.unwritten = w.unwritten.drop n) : Writes w (.wrote n) w'
  | idle {s : WorkerStep} {w' : Worker} (quiet : w'.isWriting = false) : Writes w s w'

theorem step_writes {w w' : Worker} {s : WorkerStep} (h : w.step s = some w') : Writes w s w' := by
  cases s with
  | decode =>
    simp only [step] at h
    split at h
    · split at h <;> cases h
      all_goals exact .idle rfl
    · cases h
  | emitted | closed | fail | remove =>
    simp only [step] at h
    split at h <;> cases h
    all_goals exact .idle rfl
  | take =>
    simp only [step] at h
    split at h
    · rename_i frame commands hphase hcommands
      split at h
      · rename_i encoded hencode
        cases h
        exact .starts hcommands (FrameEncoder.encode_ok hencode).1
      · cases h
        exact .idle rfl
    · cases h
      exact .idle rfl
    · cases h
  | wrote n =>
    simp only [step] at h
    split at h
    · rename_i frame rest hphase
      have hrest : w.unwritten = rest := by simp only [unwritten, hphase]
      split at h
      · rename_i hn
        cases h
        refine .goesOn (by simp only [isWriting, hphase]) ?_ ?_
        · rw [hrest]
          exact hn.2
        · rw [hrest]
          rfl
      · split at h <;> cases h
        exact .idle rfl
    · cases h
  | read bytes =>
    simp only [step] at h
    split at h
    · split at h <;> cases h
      all_goals exact .idle rfl
    · cases h

/-- A task takes commands from its queue and adds none. -/
theorem step_commands {w w' : Worker} {s : WorkerStep} (h : w.step s = some w') :
    w'.commands = w.commands ∨ ∃ command, w.commands = command :: w'.commands := by
  cases s with
  | take =>
    simp only [step] at h
    split at h
    · rename_i frame commands hphase hcommands
      split at h <;> cases h
      all_goals exact .inr ⟨_, hcommands⟩
    · rename_i commands hphase hcommands
      cases h
      exact .inr ⟨_, hcommands⟩
    · cases h
  | decode =>
    simp only [step] at h
    split at h
    · split at h <;> cases h
      all_goals exact .inl rfl
    · cases h
  | wrote n =>
    simp only [step] at h
    split at h
    · split at h
      · cases h
        exact .inl rfl
      · split at h <;> cases h
        exact .inl rfl
    · cases h
  | read bytes =>
    simp only [step] at h
    split at h
    · split at h <;> cases h
      all_goals exact .inl rfl
    · cases h
  | emitted | closed | fail | remove =>
    simp only [step] at h
    split at h <;> cases h
    all_goals exact .inl rfl

end Worker
end Transport
end MeshBus
