import MeshBus.Lib.Emit
import MeshBus.Transport.Hello

/-!
# Transport.Socket

One socket together with its history: the frames that were submitted, started, decoded and handed to
the runtime, and the bytes that were written and read. `Socket.Inv` ties the state to the history,
whatever the peer sends: the bytes read are the frames decoded and the buffer; the bytes written are
the hello, the frames reported as sent and part of the one being written; the events are one `Up`,
frames and reports in order, and one `Down` if the queue still takes it.
-/

namespace MeshBus
namespace Transport

open Wire MeshBus.Runtime

structure History where
  /-- The frames put into the command queue. -/
  submitted : List WireFrame
  /-- The frames taken from it and encoded. -/
  started : List WireFrame
  written : Bytes
  read : Bytes
  decoded : List WireFrame
  /-- The events the event queue took. -/
  handed : List LinkEvent

namespace History

def empty : History := ⟨[], [], [], [], [], []⟩

/-- What a step of a `run_link` task adds. -/
def noteWork (h : History) (w : Worker) : WorkerStep → History
  | .decode =>
    match FrameDecoder.decode w.buffered with
    | .ok (some (frame, _)) => { h with decoded := h.decoded ++ [frame] }
    | _ => h
  | .emitted => { h with handed := h.handed ++ w.event?.toList }
  | .take =>
    match w.commands with
    | .send frame :: _ =>
      match FrameEncoder.encode frame with
      | .ok _ => { h with started := h.started ++ [frame] }
      | .error _ => h
    | _ => h
  | .wrote n => { h with written := h.written ++ w.unwritten.take n }
  | .read bytes => { h with read := h.read ++ bytes }
  | .closed | .fail | .remove => h

/-- What a step adds. -/
def note (h : History) : Attachment → AttachStep → History
  | .greeting rest, .wrote n => { h with written := h.written ++ rest.take n }
  | .decoding buffered, .decode =>
    match FrameDecoder.decode buffered with
    | .ok (some (frame, _)) => { h with decoded := h.decoded ++ [frame] }
    | _ => h
  | .reading _, .read bytes => { h with read := h.read ++ bytes }
  | .serving _, .submit (.send frame) => { h with submitted := h.submitted ++ [frame] }
  | .serving w, .work s => h.noteWork w s
  | _, _ => h

end History

structure Socket where
  attachment : Attachment
  history : History

namespace Socket

def start (localNode : NodeId) : Socket := ⟨.start localNode, .empty⟩

def step (prost : Bytes → Option LinkHello) (expected : Option NodeId) (k : Socket)
    (s : AttachStep) : Option Socket :=
  (k.attachment.step prost expected s).map fun a => ⟨a, k.history.note k.attachment s⟩

end Socket

/-! ## Steps of the task -/

namespace Worker

/-- Everything a step can do. -/
inductive Acts (w : Worker) (h : History) : WorkerStep → Worker → History → Prop
  | decoded {frame : WireFrame} {rest : Bytes} (phase : w.phase = .decoding)
      (decode : FrameDecoder.decode w.buffered = .ok (some (frame, rest))) :
      Acts w h .decode { w with phase := .emitting (.frame w.link frame), buffered := rest }
        { h with decoded := h.decoded ++ [frame] }
  | drained (phase : w.phase = .decoding) (decode : FrameDecoder.decode w.buffered = .ok none) :
      Acts w h .decode { w with phase := .selecting } h
  | corrupt {e : FrameError} (phase : w.phase = .decoding)
      (decode : FrameDecoder.decode w.buffered = .error e) :
      Acts w h .decode { w with phase := .leaving } h
  | announced {peer : NodeId} (phase : w.phase = .announcing peer) :
      Acts w h .emitted { w with phase := .decoding }
        { h with handed := h.handed ++ [.up w.link peer] }
  | handed {event : LinkEvent} (phase : w.phase = .emitting event) :
      Acts w h .emitted { w with phase := .decoding } { h with handed := h.handed ++ [event] }
  | departed (phase : w.phase = .departing) :
      Acts w h .emitted { w with phase := .gone } { h with handed := h.handed ++ [.down w.link] }
  | unannounced {peer : NodeId} (phase : w.phase = .announcing peer) :
      Acts w h .closed { w with phase := .withdrawing } h
  | unheard {event : LinkEvent} (phase : w.phase = .emitting event) :
      Acts w h .closed { w with phase := .leaving } h
  | unnoticed (phase : w.phase = .departing) : Acts w h .closed { w with phase := .gone } h
  | starts {frame : WireFrame} {commands : List LinkCommand} (phase : w.phase = .selecting)
      (queue : w.commands = .send frame :: commands) (fits : frame.payload.length ≤ maxPayloadLen) :
      Acts w h .take { w with phase := .writing frame (frameBytes frame), commands := commands }
        { h with started := h.started ++ [frame] }
  | refuses {frame : WireFrame} {commands : List LinkCommand} (phase : w.phase = .selecting)
      (queue : w.commands = .send frame :: commands) :
      Acts w h .take { w with phase := .leaving, commands := commands } h
  | closes {commands : List LinkCommand} (phase : w.phase = .selecting)
      (queue : w.commands = .close :: commands) :
      Acts w h .take { w with phase := .leaving, commands := commands } h
  | writes {frame : WireFrame} {rest : Bytes} {n : Nat} (phase : w.phase = .writing frame rest) :
      Acts w h (.wrote n) { w with phase := .writing frame (rest.drop n) }
        { h with written := h.written ++ rest.take n }
  | wrote {frame : WireFrame} {rest : Bytes} (phase : w.phase = .writing frame rest) :
      Acts w h (.wrote rest.length) { w with phase := .emitting (sentEvent w.link frame) }
        { h with written := h.written ++ rest }
  | ended (phase : w.phase = .selecting) : Acts w h (.read []) { w with phase := .leaving } h
  | reads {bytes : Bytes} (phase : w.phase = .selecting) :
      Acts w h (.read bytes) { w with phase := .decoding, buffered := w.buffered ++ bytes }
        { h with read := h.read ++ bytes }
  | failed (phase : w.phase = .selecting) : Acts w h .fail { w with phase := .leaving } h
  | broken {frame : WireFrame} {rest : Bytes} (phase : w.phase = .writing frame rest) :
      Acts w h .fail { w with phase := .leaving } h
  | removed (phase : w.phase = .leaving) : Acts w h .remove { w with phase := .departing } h
  | withdrawn (phase : w.phase = .withdrawing) : Acts w h .remove { w with phase := .withdrawn } h

theorem step_acts {w w' : Worker} {s : WorkerStep} (hstep : w.step s = some w') (h : History) :
    Acts w h s w' (h.noteWork w s) := by
  cases s with
  | decode =>
    simp only [step] at hstep
    split at hstep
    · rename_i hphase
      split at hstep
      · rename_i frame rest hdec
        cases hstep
        simp only [History.noteWork, hdec]
        exact .decoded hphase hdec
      · rename_i hdec
        cases hstep
        simp only [History.noteWork, hdec]
        exact .drained hphase hdec
      · rename_i e hdec
        cases hstep
        simp only [History.noteWork, hdec]
        exact .corrupt hphase hdec
    · cases hstep
  | emitted =>
    simp only [step] at hstep
    split at hstep <;> cases hstep
    · rename_i hphase
      simp only [History.noteWork, event?, hphase]
      exact .announced hphase
    · rename_i hphase
      simp only [History.noteWork, event?, hphase]
      exact .handed hphase
    · rename_i hphase
      simp only [History.noteWork, event?, hphase]
      exact .departed hphase
  | closed =>
    simp only [step] at hstep
    split at hstep <;> cases hstep
    · rename_i hphase
      exact .unannounced hphase
    · rename_i hphase
      exact .unheard hphase
    · rename_i hphase
      exact .unnoticed hphase
  | take =>
    simp only [step] at hstep
    split at hstep
    · rename_i frame commands hphase hqueue
      split at hstep
      · rename_i encoded hencode
        cases hstep
        obtain ⟨rfl, hfits⟩ := FrameEncoder.encode_ok hencode
        simp only [History.noteWork, hqueue, hencode]
        exact .starts hphase hqueue hfits
      · rename_i e hencode
        cases hstep
        simp only [History.noteWork, hqueue, hencode]
        exact .refuses hphase hqueue
    · rename_i commands hphase hqueue
      cases hstep
      simp only [History.noteWork, hqueue]
      exact .closes hphase hqueue
    · cases hstep
  | wrote n =>
    simp only [step] at hstep
    split at hstep
    · rename_i frame rest hphase
      simp only [History.noteWork, unwritten, hphase]
      split at hstep
      · cases hstep
        exact .writes hphase
      · split at hstep
        · rename_i hn
          subst hn
          cases hstep
          rw [List.take_length]
          exact .wrote hphase
        · cases hstep
    · cases hstep
  | read bytes =>
    simp only [step] at hstep
    split at hstep
    · rename_i hphase
      split at hstep
      · rename_i hnil
        cases hstep
        rw [List.isEmpty_iff.mp hnil]
        simp only [History.noteWork, List.append_nil]
        exact .ended hphase
      · cases hstep
        exact .reads hphase
    · cases hstep
  | fail =>
    simp only [step] at hstep
    split at hstep <;> cases hstep
    · rename_i hphase
      exact .failed hphase
    · rename_i hphase
      exact .broken hphase
  | remove =>
    simp only [step] at hstep
    split at hstep <;> cases hstep
    · rename_i hphase
      exact .removed hphase
    · rename_i hphase
      exact .withdrawn hphase

theorem Acts.link {w w' : Worker} {h h' : History} {s : WorkerStep} (acts : Acts w h s w' h') :
    w'.link = w.link := by
  cases acts <;> rfl

end Worker

/-! ## What the history of a task says -/

/-- The frames among events. -/
def framesIn (events : List LinkEvent) : List WireFrame :=
  events.filterMap fun
    | .frame _ frame => some frame
    | _ => none

def isReport : LinkEvent → Bool
  | .sent _ _ _ _ => true
  | .up _ _ | .down _ | .frame _ _ => false

/-- The reports of writing among events. -/
def reportsIn (events : List LinkEvent) : List LinkEvent := events.filter isReport

/-- The frames among commands. -/
def sendsIn (commands : List LinkCommand) : List WireFrame :=
  commands.filterMap fun
    | .send frame => some frame
    | .close => none

/-- A frame or a report of this link. -/
def isTraffic (link : LinkId) : LinkEvent → Bool
  | .frame l _ => l = link
  | .sent l _ _ _ => l = link
  | .up _ _ | .down _ => false

namespace Worker

/-- It has left its loop. -/
def hasLeft (w : Worker) : Bool :=
  match w.phase with
  | .leaving | .departing | .gone => true
  | _ => false

/-- The frame that is decoded and not handed over; it is lost if the queue does not take it. -/
def Held (w : Worker) (held : List WireFrame) : Prop :=
  match w.phase with
  | .emitting (.frame _ frame) => held = [frame]
  | .leaving | .departing | .gone => held.length ≤ 1
  | _ => held = []

/-- The frame that is started and not reported, and how much of it is written. -/
def Pending (w : Worker) (pending : List WireFrame) (part : Bytes) : Prop :=
  match w.phase with
  | .writing frame rest => pending = [frame] ∧ frameBytes frame = part ++ rest
  | .emitting (.sent link frameType channel payloadBytes) =>
    ∃ frame, pending = [frame] ∧ part = frameBytes frame ∧
      LinkEvent.sent link frameType channel payloadBytes = sentEvent w.link frame
  | .leaving | .departing | .gone => part <+: pending.flatMap frameBytes
  | _ => pending = [] ∧ part = []

theorem Pending.part {w : Worker} {pending : List WireFrame} {part : Bytes}
    (h : w.Pending pending part) : part <+: pending.flatMap frameBytes := by
  simp only [Pending] at h
  split at h
  · rename_i frame rest hphase
    obtain ⟨rfl, hpart⟩ := h
    exact ⟨rest, by simp [hpart]⟩
  · obtain ⟨frame, rfl, rfl, -⟩ := h
    simp
  · exact h
  · exact h
  · exact h
  · simp [h.2]

/-- The events of a link so far: `Up`, then frames and reports, and `Down` when the task is gone
unless the queue was closed. -/
def Lifecycle (w : Worker) (peer : NodeId) (handed : List LinkEvent) : Prop :=
  match w.phase with
  | .announcing node => node = peer ∧ handed = []
  | .withdrawing | .withdrawn => handed = []
  | .emitting event =>
    isTraffic w.link event = true ∧ ∃ traffic, handed = .up w.link peer :: traffic ∧
      ∀ e ∈ traffic, isTraffic w.link e = true
  | .gone =>
    ∃ traffic last, handed = .up w.link peer :: (traffic ++ last) ∧
      (last = [] ∨ last = [.down w.link]) ∧ ∀ e ∈ traffic, isTraffic w.link e = true
  | _ =>
    ∃ traffic, handed = .up w.link peer :: traffic ∧ ∀ e ∈ traffic, isTraffic w.link e = true

/-- The task with its history, after a hello of `peer`. -/
structure Inv (me peer : NodeId) (hello : WireFrame) (w : Worker) (h : History) : Prop where
  read : h.read = h.decoded.flatMap frameBytes ++ w.buffered
  decoded : ∃ held, h.decoded = hello :: (framesIn h.handed ++ held) ∧ w.Held held
  events : w.Lifecycle peer h.handed
  queue : ∃ refused, h.submitted = h.started ++ (refused ++ sendsIn w.commands) ∧
    (w.hasLeft = false → refused = [])
  fits : ∀ frame ∈ h.started, frame.payload.length ≤ maxPayloadLen
  /-- What is reported is written; at most one frame is written in part. -/
  written : ∃ done pending part, h.started = done ++ pending ∧
    reportsIn h.handed = done.map (sentEvent w.link) ∧
    h.written = frameBytes (helloOf me) ++ (done.flatMap frameBytes ++ part) ∧
    w.Pending pending part
  quiet : w.phase = .selecting → FrameDecoder.decode w.buffered = .ok none

/-- The only `Up` names the peer. -/
theorem Lifecycle.up {w : Worker} {peer node : NodeId} {link : LinkId} {handed : List LinkEvent}
    (h : w.Lifecycle peer handed) (hup : .up link node ∈ handed) : node = peer := by
  have htraffic : ∀ {traffic : List LinkEvent}, (∀ e ∈ traffic, isTraffic w.link e = true) →
      .up link node ∉ traffic := by
    intro traffic hall hmem
    cases hall _ hmem
  simp only [Lifecycle] at h
  split at h
  · rw [h.2] at hup
    cases hup
  · rw [h] at hup
    cases hup
  · rw [h] at hup
    cases hup
  · obtain ⟨-, traffic, rfl, hall⟩ := h
    rcases List.mem_cons.mp hup with heq | hmem
    · cases heq
      rfl
    · exact absurd hmem (htraffic hall)
  · obtain ⟨traffic, last, rfl, hlast, hall⟩ := h
    rcases List.mem_cons.mp hup with heq | hmem
    · cases heq
      rfl
    · rcases List.mem_append.mp hmem with hmem | hmem
      · exact absurd hmem (htraffic hall)
      · rcases hlast with rfl | rfl
        · cases hmem
        · cases List.mem_singleton.mp hmem
  · obtain ⟨traffic, rfl, hall⟩ := h
    rcases List.mem_cons.mp hup with heq | hmem
    · cases heq
      rfl
    · exact absurd hmem (htraffic hall)

theorem framesIn_append (a b : List LinkEvent) : framesIn (a ++ b) = framesIn a ++ framesIn b :=
  List.filterMap_append

theorem reportsIn_append_report {event : LinkEvent} (h : isReport event = true)
    (events : List LinkEvent) : reportsIn (events ++ [event]) = reportsIn events ++ [event] := by
  simp [reportsIn, h]

theorem reportsIn_append_other {event : LinkEvent} (h : isReport event = false)
    (events : List LinkEvent) : reportsIn (events ++ [event]) = reportsIn events := by
  simp [reportsIn, h]

theorem inv_attach {me peer : NodeId} {hello : WireFrame} {h : History} {buffered : Bytes}
    (link : LinkId) (hread : h.read = frameBytes hello ++ buffered) (hdecoded : h.decoded = [hello])
    (hwritten : h.written = frameBytes (helloOf me)) (hstarted : h.started = [])
    (hsubmitted : h.submitted = []) (hhanded : h.handed = []) :
    Inv me peer hello (attach link peer buffered) h where
  read := by simp [attach, hread, hdecoded]
  decoded := ⟨[], by simp [framesIn, hdecoded, hhanded], rfl⟩
  events := ⟨rfl, hhanded⟩
  queue := ⟨[], by simp [attach, sendsIn, hstarted, hsubmitted], fun _ => rfl⟩
  fits := by simp [hstarted]
  written := ⟨[], [], [], by simp [attach, Pending, reportsIn, hstarted, hhanded, hwritten]⟩
  quiet := by simp [attach]

section Steps

variable {me peer : NodeId} {hello : WireFrame} {w w' : Worker} {h h' : History} {s : WorkerStep}

theorem Inv.read_step (inv : Inv me peer hello w h) (acts : Acts w h s w' h') :
    h'.read = h'.decoded.flatMap frameBytes ++ w'.buffered := by
  cases acts with
  | decoded phase decode =>
    have hsound := (FrameDecoder.decode_sound decode).2
    simp [inv.read, hsound]
  | reads phase => simp [inv.read]
  | _ => exact inv.read

theorem Inv.decoded_step (inv : Inv me peer hello w h) (acts : Acts w h s w' h') :
    ∃ held, h'.decoded = hello :: (framesIn h'.handed ++ held) ∧ w'.Held held := by
  obtain ⟨held, hdecoded, hheld⟩ := inv.decoded
  cases acts with
  | @decoded frame rest phase decode =>
    simp only [Held, phase] at hheld
    exact ⟨[frame], by simp [hdecoded, hheld], rfl⟩
  | @handed event phase =>
    refine ⟨[], ?_, rfl⟩
    rw [hdecoded, framesIn_append]
    cases event <;> simp_all [Held, framesIn]
  | @unheard event phase =>
    refine ⟨held, hdecoded, ?_⟩
    cases event <;> simp_all [Held]
  | announced phase | departed phase =>
    refine ⟨held, ?_, by simpa only [Held, phase] using hheld⟩
    rw [hdecoded, framesIn_append]
    simp [framesIn]
  | corrupt phase _ | refuses phase _ | closes phase _ | ended phase | failed phase
  | broken phase =>
    simp only [Held, phase] at hheld
    exact ⟨held, hdecoded, by simp [Held, hheld]⟩
  | drained phase _ | unannounced phase | unnoticed phase | starts phase _ _ | writes phase
  | wrote phase | reads phase | removed phase | withdrawn phase =>
    exact ⟨held, hdecoded, by simpa only [Held, phase, sentEvent] using hheld⟩

theorem Inv.events_step (inv : Inv me peer hello w h) (acts : Acts w h s w' h') :
    w'.Lifecycle peer h'.handed := by
  have hevents := inv.events
  cases acts with
  | announced phase =>
    simp only [Lifecycle, phase] at hevents ⊢
    exact ⟨[], by simp [hevents.1, hevents.2], by simp⟩
  | @handed event phase =>
    simp only [Lifecycle, phase] at hevents ⊢
    obtain ⟨hevent, traffic, htraffic, hall⟩ := hevents
    refine ⟨traffic ++ [event], by simp [htraffic], ?_⟩
    simp only [List.mem_append, List.mem_singleton]
    rintro e (he | rfl)
    · exact hall e he
    · exact hevent
  | departed phase =>
    simp only [Lifecycle, phase] at hevents ⊢
    obtain ⟨traffic, htraffic, hall⟩ := hevents
    exact ⟨traffic, [.down w.link], by simp [htraffic], .inr rfl, hall⟩
  | unnoticed phase =>
    simp only [Lifecycle, phase] at hevents ⊢
    obtain ⟨traffic, htraffic, hall⟩ := hevents
    exact ⟨traffic, [], by simp [htraffic], .inl rfl, hall⟩
  | unannounced phase | unheard phase =>
    simp only [Lifecycle, phase] at hevents ⊢
    exact hevents.2
  | decoded phase decode =>
    simp only [Lifecycle, phase] at hevents ⊢
    exact ⟨by simp [isTraffic], hevents⟩
  | wrote phase =>
    simp only [Lifecycle, phase] at hevents ⊢
    exact ⟨by simp [isTraffic, sentEvent], hevents⟩
  | drained phase _ | corrupt phase _ | starts phase _ _ | refuses phase _ | closes phase _
  | writes phase | ended phase | reads phase | failed phase | broken phase | removed phase
  | withdrawn phase =>
    simp only [Lifecycle, phase] at hevents ⊢
    exact hevents

theorem Inv.queue_step (inv : Inv me peer hello w h) (acts : Acts w h s w' h') :
    ∃ refused, h'.submitted = h'.started ++ (refused ++ sendsIn w'.commands) ∧
      (w'.hasLeft = false → refused = []) := by
  obtain ⟨refused, hqueue, hrefused⟩ := inv.queue
  cases acts with
  | starts phase queue fits =>
    have hnil : refused = [] := hrefused (by simp [hasLeft, phase])
    refine ⟨[], ?_, fun _ => rfl⟩
    simp [hqueue, hnil, queue, sendsIn]
  | @refuses frame commands phase queue =>
    have hnil : refused = [] := hrefused (by simp [hasLeft, phase])
    refine ⟨[frame], ?_, by simp [hasLeft]⟩
    simp [hqueue, hnil, queue, sendsIn]
  | closes phase queue =>
    refine ⟨refused, ?_, by simp [hasLeft]⟩
    simp [hqueue, queue, sendsIn]
  | decoded phase _ | drained phase _ | corrupt phase _ | announced phase | handed phase
  | departed phase | writes phase | wrote phase | ended phase | reads phase | failed phase
  | broken phase | removed phase | unannounced phase | unheard phase | unnoticed phase
  | withdrawn phase =>
    exact ⟨refused, hqueue, fun hin => hrefused (by simp_all [hasLeft])⟩

theorem Inv.fits_step (inv : Inv me peer hello w h) (acts : Acts w h s w' h') :
    ∀ frame ∈ h'.started, frame.payload.length ≤ maxPayloadLen := by
  cases acts with
  | starts phase queue fits =>
    simp only [List.mem_append, List.mem_singleton]
    rintro frame (hframe | rfl)
    · exact inv.fits frame hframe
    · exact fits
  | _ => exact inv.fits

theorem Inv.written_step (inv : Inv me peer hello w h) (acts : Acts w h s w' h') :
    ∃ done pending part, h'.started = done ++ pending ∧
      reportsIn h'.handed = done.map (sentEvent w'.link) ∧
      h'.written = frameBytes (helloOf me) ++ (done.flatMap frameBytes ++ part) ∧
      w'.Pending pending part := by
  obtain ⟨done, pending, part, hstarted, hreports, hwritten, hpending⟩ := inv.written
  cases acts with
  | @starts frame commands phase queue fits =>
    simp only [Pending, phase] at hpending
    obtain ⟨rfl, rfl⟩ := hpending
    exact ⟨done, [frame], [], by simp [hstarted], hreports, hwritten, rfl, by simp⟩
  | @writes frame rest n phase =>
    simp only [Pending, phase] at hpending
    obtain ⟨rfl, hpart⟩ := hpending
    refine ⟨done, [frame], part ++ rest.take n, hstarted, hreports, by simp [hwritten], rfl, ?_⟩
    rw [List.append_assoc, List.take_append_drop, hpart]
  | @wrote frame rest phase =>
    simp only [Pending, phase] at hpending
    obtain ⟨rfl, hpart⟩ := hpending
    exact ⟨done, [frame], part ++ rest, hstarted, hreports, by simp [hwritten], frame, rfl,
      hpart.symm, rfl⟩
  | @handed event phase =>
    cases event with
    | sent link frameType channel payloadBytes =>
      simp only [Pending, phase] at hpending
      obtain ⟨frame, rfl, rfl, hevent⟩ := hpending
      refine ⟨done ++ [frame], [], [], by simp [hstarted], ?_, by simp [hwritten], rfl, rfl⟩
      rw [reportsIn_append_report rfl, hreports, hevent, List.map_append]
      rfl
    | up _ _ | down _ | frame _ _ =>
      simp only [Pending, phase] at hpending
      refine ⟨done, pending, part, hstarted, ?_, hwritten, hpending⟩
      rw [reportsIn_append_other rfl, hreports]
  | announced phase =>
    simp only [Pending, phase] at hpending
    refine ⟨done, pending, part, hstarted, ?_, hwritten, hpending⟩
    rw [reportsIn_append_other rfl, hreports]
  | departed phase =>
    simp only [Pending, phase] at hpending
    refine ⟨done, pending, part, hstarted, ?_, hwritten, hpending⟩
    rw [reportsIn_append_other rfl, hreports]
  | broken phase | unheard phase | corrupt phase _ | refuses phase _ | closes phase _ | ended phase
  | failed phase =>
    exact ⟨done, pending, part, hstarted, hreports, hwritten, hpending.part⟩
  | decoded phase _ | drained phase _ | reads phase | removed phase | unannounced phase
  | unnoticed phase | withdrawn phase =>
    simp only [Pending, phase] at hpending
    exact ⟨done, pending, part, hstarted, hreports, hwritten, hpending⟩

theorem Inv.quiet_step (acts : Acts w h s w' h') :
    w'.phase = .selecting → FrameDecoder.decode w'.buffered = .ok none := by
  cases acts with
  | drained phase decode => exact fun _ => decode
  | _ => exact fun hphase => by cases hphase

theorem Inv.step (inv : Inv me peer hello w h) (acts : Acts w h s w' h') :
    Inv me peer hello w' h' where
  read := inv.read_step acts
  decoded := inv.decoded_step acts
  events := inv.events_step acts
  queue := inv.queue_step acts
  fits := inv.fits_step acts
  written := inv.written_step acts
  quiet := Inv.quiet_step acts

end Steps

theorem Inv.submit {me peer : NodeId} {hello : WireFrame} {w : Worker} {h : History}
    (inv : Inv me peer hello w h) (command : LinkCommand) :
    Inv me peer hello { w with commands := w.commands ++ [command] }
      (h.note (.serving w) (.submit command)) := by
  obtain ⟨refused, hqueue, hrefused⟩ := inv.queue
  cases command with
  | send frame =>
    refine ⟨inv.read, inv.decoded, inv.events, ⟨refused, ?_, hrefused⟩, inv.fits, inv.written,
      inv.quiet⟩
    simp [History.note, hqueue, sendsIn]
  | close =>
    refine ⟨inv.read, inv.decoded, inv.events, ⟨refused, ?_, hrefused⟩, inv.fits, inv.written,
      inv.quiet⟩
    simp [History.note, hqueue, sendsIn]

end Worker

/-! ## Sockets -/

namespace Socket

/-- Why `attach_stream` returned an error. -/
inductive Reason (prost : Bytes → Option LinkHello) (expected : Option NodeId) :
    TransportError → Bytes → List WireFrame → Prop
  | socket {buffered : Bytes} : Reason prost expected .io buffered []
  | ended {buffered : Bytes} : Reason prost expected .unexpectedEndOfStream buffered []
  | corrupt {buffered : Bytes} {e : FrameError} (decode : FrameDecoder.decode buffered = .error e) :
      Reason prost expected (.wire e) buffered []
  | stranger {buffered : Bytes} {frame : WireFrame} {e : TransportError}
      (unknown : identify prost frame = .error e) : Reason prost expected e buffered [frame]
  | refused {buffered : Bytes} {frame : WireFrame} {peer : NodeId} {e : TransportError}
      {allowedPeers : OrdSet NodeId} (known : identify prost frame = .ok peer)
      (denied : checkPeer expected allowedPeers peer = .error e) :
      Reason prost expected e buffered [frame]
  | exhausted {buffered : Bytes} {frame : WireFrame} {peer : NodeId}
      (known : identify prost frame = .ok peer) :
      Reason prost expected .linkIdExhausted buffered [frame]

/-- No command was submitted and no event handed over. -/
structure Unused (h : History) : Prop where
  submitted : h.submitted = []
  started : h.started = []
  handed : h.handed = []

/-- The state of a socket and its history; `Known` holds of every peer that was ever allowed. -/
def Inv (prost : Bytes → Option LinkHello) (expected : Option NodeId) (Known : NodeId → Prop)
    (me : NodeId) (k : Socket) : Prop :=
  match k.attachment with
  | .greeting rest =>
    Unused k.history ∧ k.history.read = [] ∧ k.history.decoded = [] ∧
      frameBytes (helloOf me) = k.history.written ++ rest
  | .decoding buffered | .reading buffered =>
    Unused k.history ∧ k.history.read = buffered ∧ k.history.decoded = [] ∧
      k.history.written = frameBytes (helloOf me)
  | .checking peer buffered =>
    Unused k.history ∧ k.history.written = frameBytes (helloOf me) ∧
      ∃ hello, identify prost hello = .ok peer ∧ k.history.decoded = [hello] ∧
        k.history.read = frameBytes hello ++ buffered
  | .failed error buffered =>
    Unused k.history ∧ k.history.written <+: frameBytes (helloOf me) ∧
      k.history.read = k.history.decoded.flatMap frameBytes ++ buffered ∧
      Reason prost expected error buffered k.history.decoded
  | .serving w =>
    ∃ peer hello, identify prost hello = .ok peer ∧ Known peer ∧
      (∀ node, expected = some node → peer = node) ∧ w.Inv me peer hello k.history

section Steps

variable {prost : Bytes → Option LinkHello} {expected : Option NodeId} {Known : NodeId → Prop}
  {me : NodeId}

theorem inv_start : (start me).Inv prost expected Known me := by
  rw [start, Attachment.start_eq]
  exact ⟨⟨rfl, rfl, rfl⟩, rfl, rfl, rfl⟩

theorem Inv.mono {Known' : NodeId → Prop} {k : Socket} (inv : k.Inv prost expected Known me)
    (h : ∀ node, Known node → Known' node) : k.Inv prost expected Known' me := by
  obtain ⟨a, hist⟩ := k
  cases a with
  | serving w =>
    obtain ⟨peer, hello, hid, hknown, hexpected, hw⟩ := inv
    exact ⟨peer, hello, hid, h peer hknown, hexpected, hw⟩
  | _ => exact inv

theorem greeted {h : History} (hwritten : h.written = frameBytes (helloOf me)) :
    h.written <+: frameBytes (helloOf me) := by
  rw [hwritten]

theorem Inv.decode {h : History} {buffered : Bytes} {a : Attachment}
    (inv : Inv prost expected Known me ⟨.decoding buffered, h⟩)
    (hstep : (Attachment.decoding buffered).step prost expected .decode = some a) :
    Inv prost expected Known me ⟨a, h.note (.decoding buffered) .decode⟩ := by
  obtain ⟨hunused, hread, hdecoded, hwritten⟩ := inv
  have hread : h.read = buffered := hread
  have hdecoded : h.decoded = [] := hdecoded
  simp only [Attachment.step] at hstep
  split at hstep
  · rename_i e hdec
    cases hstep
    simp only [History.note, hdec]
    refine ⟨hunused, greeted hwritten, ?_, ?_⟩
    · simp [hread, hdecoded]
    · rw [hdecoded]
      exact .corrupt hdec
  · rename_i hdec
    cases hstep
    simp only [History.note, hdec]
    exact ⟨hunused, hread, hdecoded, hwritten⟩
  · rename_i frame rest hdec
    have hsound := (FrameDecoder.decode_sound hdec).2
    have hread' : h.read = frameBytes frame ++ rest := hread.trans hsound
    have hunused' : Unused { h with decoded := h.decoded ++ [frame] } :=
      ⟨hunused.submitted, hunused.started, hunused.handed⟩
    have hdecoded' : h.decoded ++ [frame] = [frame] := by
      rw [hdecoded, List.nil_append]
    simp only [History.note, hdec]
    split at hstep
    · rename_i e hid
      cases hstep
      refine ⟨hunused', greeted hwritten, ?_, ?_⟩
      · simp [hdecoded', hread']
      · simp only [hdecoded']
        exact .stranger hid
    · rename_i peer hid
      cases hstep
      exact ⟨hunused', hwritten, frame, hid, hdecoded', hread'⟩

theorem Inv.check {h : History} {peer : NodeId} {buffered : Bytes} {allowedPeers : OrdSet NodeId}
    {nextLink : Option LinkId} {a : Attachment}
    (inv : Inv prost expected Known me ⟨.checking peer buffered, h⟩)
    (hknown : ∀ node, node ∈ allowedPeers → Known node)
    (hstep : (Attachment.checking peer buffered).step prost expected
      (.check allowedPeers nextLink) = some a) :
    Inv prost expected Known me ⟨a, h⟩ := by
  obtain ⟨hunused, hwritten, hello, hid, hdecoded, hread⟩ := inv
  have hread' : h.read = h.decoded.flatMap frameBytes ++ buffered := by
    rw [show h.decoded = [hello] from hdecoded]
    simpa using hread
  simp only [Attachment.step] at hstep
  split at hstep
  · rename_i e hcheck
    cases hstep
    refine ⟨hunused, greeted hwritten, hread', ?_⟩
    rw [hdecoded]
    exact .refused hid hcheck
  · rename_i hcheck
    obtain ⟨hallowed, hexpected⟩ := checkPeer_ok hcheck
    split at hstep
    · cases hstep
      refine ⟨hunused, greeted hwritten, hread', ?_⟩
      rw [hdecoded]
      exact .exhausted hid
    · rename_i link
      cases hstep
      exact ⟨peer, hello, hid, hknown peer hallowed, hexpected,
        Worker.inv_attach link hread hdecoded hwritten hunused.started hunused.submitted
          hunused.handed⟩

theorem Inv.step {k k' : Socket} {s : AttachStep} (inv : k.Inv prost expected Known me)
    (hknown : ∀ allowedPeers nextLink, s = .check allowedPeers nextLink →
      ∀ node, node ∈ allowedPeers → Known node)
    (hstep : k.step prost expected s = some k') : k'.Inv prost expected Known me := by
  obtain ⟨a, h⟩ := k
  simp only [Socket.step, Option.map_eq_some_iff] at hstep
  obtain ⟨a', hstep, rfl⟩ := hstep
  cases a with
  | greeting rest =>
    obtain ⟨hunused, hread, hdecoded, hwritten⟩ := inv
    have hread' : h.read = [] := hread
    have hdecoded' : h.decoded = [] := hdecoded
    cases s with
    | wrote n =>
      simp only [Attachment.step] at hstep
      split at hstep
      · cases hstep
        refine ⟨⟨hunused.submitted, hunused.started, hunused.handed⟩, hread, hdecoded, ?_⟩
        simpa [History.note] using hwritten
      · split at hstep
        · rename_i hn
          cases hstep
          refine ⟨⟨hunused.submitted, hunused.started, hunused.handed⟩, hread, hdecoded, ?_⟩
          simpa [History.note, hn] using hwritten.symm
        · cases hstep
    | fail =>
      cases hstep
      refine ⟨hunused, ⟨rest, hwritten.symm⟩, ?_, ?_⟩
      · simp [History.note, hread', hdecoded']
      · simp only [History.note, hdecoded']
        exact .socket
    | _ => cases hstep
  | decoding buffered =>
    cases s with
    | decode => exact inv.decode hstep
    | _ => cases hstep
  | reading buffered =>
    obtain ⟨hunused, hread, hdecoded, hwritten⟩ := inv
    have hread' : h.read = buffered := hread
    have hdecoded' : h.decoded = [] := hdecoded
    cases s with
    | read bytes =>
      simp only [Attachment.step] at hstep
      split at hstep
      · rename_i hnil
        cases hstep
        rw [List.isEmpty_iff.mp hnil]
        refine ⟨⟨hunused.submitted, hunused.started, hunused.handed⟩, greeted hwritten,
          ?_, ?_⟩
        · simp [History.note, hread', hdecoded']
        · simp only [History.note, hdecoded']
          exact .ended
      · cases hstep
        refine ⟨⟨hunused.submitted, hunused.started, hunused.handed⟩, ?_, hdecoded, hwritten⟩
        simp [History.note, hread']
    | fail =>
      cases hstep
      refine ⟨hunused, greeted hwritten, ?_, ?_⟩
      · simp [History.note, hread', hdecoded']
      · simp only [History.note, hdecoded']
        exact .socket
    | _ => cases hstep
  | checking peer buffered =>
    cases s with
    | check allowedPeers nextLink => exact inv.check (hknown allowedPeers nextLink rfl) hstep
    | _ => cases hstep
  | failed error buffered => cases s <;> cases hstep
  | serving w =>
    obtain ⟨peer, hello, hid, hpeer, hexpected, hw⟩ := inv
    cases s with
    | submit command =>
      cases Attachment.step_submit hstep
      exact ⟨peer, hello, hid, hpeer, hexpected, hw.submit command⟩
    | work ws =>
      obtain ⟨w', hw', rfl⟩ := Option.map_eq_some_iff.mp hstep
      exact ⟨peer, hello, hid, hpeer, hexpected, hw.step (Worker.step_acts hw' h)⟩
    | _ => cases hstep

end Steps

end Socket
end Transport
end MeshBus
