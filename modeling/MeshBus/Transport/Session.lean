import MeshBus.Transport.Connection
import MeshBus.Transport.Socket

/-!
# Transport.Session

A whole TCP connection between two nodes that both run this transport, from the first byte of the
hello to the last frame: two sockets and a bounded pipe of bytes in each direction. TCP cuts the
bytes as it likes, commands come at any time, either side may fail at any time, and so may its event
queue.

The bytes an end has written are those the other has read and those in the pipe (`Inv`). With what
each socket knows of its own bytes (`Socket.Inv`), a session is a first-in first-out channel of
frames in each direction between nodes that know each other.
-/

namespace MeshBus
namespace Transport

open Wire MeshBus.Runtime

/-- A node on a connection; `expected` is `None` at the side that accepts. -/
structure Party where
  localNode : NodeId
  expected : Option NodeId

/-- The pipe of an end holds what it has written and the other has not read. -/
structure Session where
  socket : End → Socket
  pipe : End → Bytes

/-- What a step asks of the socket. -/
inductive Transfer where
  | write (n : Nat)
  | read (bytes : Bytes)
  | none

def AttachStep.transfer : AttachStep → Transfer
  | .wrote n | .work (.wrote n) => .write n
  | .read bytes | .work (.read bytes) => .read bytes
  | _ => .none

namespace Transfer

/-- The bytes that go into the pipe. -/
def sent (unwritten : Bytes) : Transfer → Bytes
  | .write n => unwritten.take n
  | .read _ | .none => []

/-- The bytes that come out of the pipe. -/
def got : Transfer → Bytes
  | .read bytes => bytes
  | .write _ | .none => []

end Transfer

namespace Session

def start (parties : End → Party) : Session where
  socket e := .start (parties e).localNode
  pipe _ := []

/-- The pipes after a step of an end; `none` if it has to wait. -/
def move (capacity : Nat) (s : Session) (e : End) : Transfer → Option (End → Bytes)
  | .write n =>
    if (s.pipe e).length + n ≤ capacity then
      some (Function.update s.pipe e (s.pipe e ++ (s.socket e).attachment.unwritten.take n))
    else none
  | .read bytes =>
    if bytes.isEmpty then
      -- the stream ends when the other side has closed and everything was read
      if (s.socket e.peer).attachment.closed && (s.pipe e.peer).isEmpty then some s.pipe else none
    else if bytes.isPrefixOf (s.pipe e.peer) then
      some (Function.update s.pipe e.peer ((s.pipe e.peer).drop bytes.length))
    else none
  | .none => some s.pipe

def step (prost : Bytes → Option LinkHello) (parties : End → Party) (capacity : Nat) (s : Session)
    (x : End × AttachStep) : Option Session := do
  let k ← (s.socket x.1).step prost (parties x.1).expected x.2
  let pipe ← s.move capacity x.1 x.2.transfer
  some ⟨Function.update s.socket x.1 k, pipe⟩

def run (prost : Bytes → Option LinkHello) (parties : End → Party) (capacity : Nat) (s : Session)
    (steps : List (End × AttachStep)) : Option Session :=
  steps.foldlM (step prost parties capacity) s

end Session

/-! ## Bytes -/

/-- A decoder that reads what an encoder has written: its frames are the first of those written, and
it refuses nothing. -/
theorem decoded_of_stream {sent decoded : List WireFrame} {written buffered rest : Bytes}
    (hsent : ∀ frame ∈ sent, frame.payload.length ≤ maxPayloadLen)
    (hdecoded : ∀ frame ∈ decoded, frame.payload.length ≤ maxPayloadLen)
    (hwritten : written <+: sent.flatMap frameBytes)
    (hread : written = decoded.flatMap frameBytes ++ buffered ++ rest) :
    decoded <+: sent ∧ ∀ error, FrameDecoder.decode buffered ≠ .error error := by
  obtain ⟨more, hmore⟩ := hwritten
  have hstream : sent.flatMap frameBytes =
      decoded.flatMap frameBytes ++ (buffered ++ (rest ++ more)) := by
    rw [← hmore, hread]
    simp only [List.append_assoc]
  obtain ⟨hitems, hleft⟩ := drain_of_flatMap_eq FrameDecoder.incremental FrameDecoder.decode_nil
    (fun frame hf => FrameDecoder.decode_frameBytes (hsent frame hf))
    (fun frame hf => FrameDecoder.decode_frameBytes (hdecoded frame hf)) hstream
  refine ⟨⟨_, hitems.symm⟩, ?_⟩
  intro error hdec
  rw [drain_error FrameDecoder.incremental (FrameDecoder.incremental.error _ hdec)] at hleft
  cases hleft

theorem History.noteWork_written (h : History) (w : Worker) (s : WorkerStep) :
    (h.noteWork w s).written = h.written ++ (AttachStep.work s).transfer.sent w.unwritten := by
  cases s with
  | wrote n => rfl
  | decode =>
    simp only [noteWork]
    split <;> simp [AttachStep.transfer, Transfer.sent]
  | take =>
    simp only [noteWork]
    split
    · split <;> simp [AttachStep.transfer, Transfer.sent]
    · simp [AttachStep.transfer, Transfer.sent]
  | _ => simp [noteWork, AttachStep.transfer, Transfer.sent]

theorem History.noteWork_read (h : History) (w : Worker) (s : WorkerStep) :
    (h.noteWork w s).read = h.read ++ (AttachStep.work s).transfer.got := by
  cases s with
  | read bytes => rfl
  | decode =>
    simp only [noteWork]
    split <;> simp [AttachStep.transfer, Transfer.got]
  | take =>
    simp only [noteWork]
    split
    · split <;> simp [AttachStep.transfer, Transfer.got]
    · simp [AttachStep.transfer, Transfer.got]
  | _ => simp [noteWork, AttachStep.transfer, Transfer.got]

namespace Socket

variable {prost : Bytes → Option LinkHello} {expected : Option NodeId} {Known : NodeId → Prop}
  {me : NodeId}

/-- What a step moves is what its history gains. -/
theorem step_bytes {k k' : Socket} {s : AttachStep} (hstep : k.step prost expected s = some k') :
    k'.history.written = k.history.written ++ s.transfer.sent k.attachment.unwritten ∧
      k'.history.read = k.history.read ++ s.transfer.got := by
  obtain ⟨a, h⟩ := k
  simp only [Socket.step, Option.map_eq_some_iff] at hstep
  obtain ⟨a', hstep, rfl⟩ := hstep
  cases a with
  | serving w =>
    cases s with
    | work ws => exact ⟨h.noteWork_written w ws, h.noteWork_read w ws⟩
    | submit command =>
      cases command <;> simp [History.note, AttachStep.transfer, Transfer.sent, Transfer.got]
    | _ => cases hstep
  | decoding buffered =>
    cases s with
    | decode =>
      simp only [History.note]
      split <;> simp [AttachStep.transfer, Transfer.sent, Transfer.got]
    | _ => cases hstep
  | greeting rest =>
    cases s with
    | wrote n => simp [History.note, AttachStep.transfer, Transfer.sent, Transfer.got,
        Attachment.unwritten]
    | fail => simp [History.note, AttachStep.transfer, Transfer.sent, Transfer.got]
    | _ => cases hstep
  | reading buffered =>
    cases s with
    | read bytes => simp [History.note, AttachStep.transfer, Transfer.sent, Transfer.got]
    | fail => simp [History.note, AttachStep.transfer, Transfer.sent, Transfer.got]
    | _ => cases hstep
  | checking peer buffered =>
    cases s with
    | check allowedPeers nextLink =>
      simp [History.note, AttachStep.transfer, Transfer.sent, Transfer.got]
    | _ => cases hstep
  | failed error buffered => cases s <;> cases hstep

/-- Every decoded frame is within the limit. -/
def Sized (k : Socket) : Prop := ∀ frame ∈ k.history.decoded, frame.payload.length ≤ maxPayloadLen

theorem Sized.decoded {h : History} {a a' : Attachment} {buffered rest : Bytes} {frame : WireFrame}
    (hsized : Sized ⟨a, h⟩)
    (hdec : FrameDecoder.decode buffered = .ok (some (frame, rest))) :
    Sized ⟨a', { h with decoded := h.decoded ++ [frame] }⟩ := by
  intro f hf
  rcases List.mem_append.mp hf with hf | hf
  · exact hsized f hf
  · rw [List.mem_singleton.mp hf]
    exact (FrameDecoder.decode_sound hdec).1

theorem Sized.step {k k' : Socket} {s : AttachStep} (hsized : k.Sized)
    (hstep : k.step prost expected s = some k') : k'.Sized := by
  obtain ⟨a, h⟩ := k
  simp only [Socket.step, Option.map_eq_some_iff] at hstep
  obtain ⟨a', hstep, rfl⟩ := hstep
  cases a with
  | serving w =>
    cases s with
    | work ws =>
      obtain ⟨w', hw', rfl⟩ := Option.map_eq_some_iff.mp hstep
      have acts := Worker.step_acts hw' h
      change Sized ⟨_, h.noteWork w ws⟩
      generalize h.noteWork w ws = h' at acts
      cases acts with
      | decoded phase decode => exact hsized.decoded decode
      | _ => exact hsized
    | submit command => cases command <;> exact hsized
    | _ => cases hstep
  | decoding buffered =>
    cases s with
    | decode =>
      simp only [History.note]
      split
      · rename_i frame rest hdec
        exact hsized.decoded hdec
      · exact hsized
    | _ => cases hstep
  | greeting rest => cases s <;> exact hsized
  | reading buffered => cases s <;> exact hsized
  | checking peer buffered => cases s <;> exact hsized
  | failed error buffered => cases s <;> cases hstep

/-- What was read is what was decoded and what is buffered. -/
theorem Inv.read {k : Socket} (inv : k.Inv prost expected Known me) :
    k.history.read = k.history.decoded.flatMap frameBytes ++ k.attachment.buffered := by
  obtain ⟨a, h⟩ := k
  cases a with
  | greeting rest =>
    obtain ⟨-, hread, hdecoded, -⟩ := inv
    simp_all [Attachment.buffered]
  | decoding buffered =>
    obtain ⟨-, hread, hdecoded, -⟩ := inv
    simp_all [Attachment.buffered]
  | reading buffered =>
    obtain ⟨-, hread, hdecoded, -⟩ := inv
    simp_all [Attachment.buffered]
  | checking peer buffered =>
    obtain ⟨-, -, hello, -, hdecoded, hread⟩ := inv
    simp_all [Attachment.buffered]
  | failed error buffered => exact inv.2.2.1
  | serving w =>
    obtain ⟨peer, hello, -, -, -, hw⟩ := inv
    exact hw.read

/-- What was written begins the encodings of the hello and of the frames taken from the queue. -/
theorem Inv.written {k : Socket} (inv : k.Inv prost expected Known me) :
    k.history.written <+: (helloOf me :: k.history.started).flatMap frameBytes := by
  obtain ⟨a, h⟩ := k
  rw [List.flatMap_cons]
  have hearly : h.written <+: frameBytes (helloOf me) →
      h.written <+: frameBytes (helloOf me) ++ h.started.flatMap frameBytes :=
    fun hle => hle.trans (List.prefix_append ..)
  cases a with
  | greeting rest => exact hearly ⟨rest, inv.2.2.2.symm⟩
  | decoding buffered => exact hearly (greeted inv.2.2.2)
  | reading buffered => exact hearly (greeted inv.2.2.2)
  | checking peer buffered => exact hearly (greeted inv.2.1)
  | failed error buffered => exact hearly inv.2.1
  | serving w =>
    obtain ⟨peer, hello, -, -, -, hw⟩ := inv
    obtain ⟨done, pending, part, hstarted, -, hwritten, hpending⟩ := hw.written
    change h.written <+: frameBytes (helloOf me) ++ h.started.flatMap frameBytes
    rw [hwritten, hstarted, List.flatMap_append]
    exact (List.prefix_append_right_inj _).mpr ((List.prefix_append_right_inj _).mpr
      hpending.part)

theorem Inv.fits {k : Socket} (inv : k.Inv prost expected Known me) :
    ∀ frame ∈ helloOf me :: k.history.started, frame.payload.length ≤ maxPayloadLen := by
  have hcons : (∀ frame ∈ k.history.started, frame.payload.length ≤ maxPayloadLen) →
      ∀ frame ∈ helloOf me :: k.history.started, frame.payload.length ≤ maxPayloadLen :=
    fun h => List.forall_mem_cons.mpr ⟨length_helloOf me, h⟩
  obtain ⟨a, h⟩ := k
  cases a with
  | serving w =>
    obtain ⟨peer, hello, -, -, -, hw⟩ := inv
    exact hcons hw.fits
  | _ =>
    refine hcons ?_
    rw [show h.started = [] from inv.1.started]
    simp

end Socket

/-! ## Sessions -/

namespace Session

variable {prost : Bytes → Option LinkHello} {parties : End → Party} {capacity : Nat}

structure Inv (prost : Bytes → Option LinkHello) (parties : End → Party) (s : Session) : Prop where
  socket : ∀ e, (s.socket e).Inv prost (parties e).expected (fun _ => True) (parties e).localNode
  sized : ∀ e, (s.socket e).Sized
  bytes : ∀ e, (s.socket e).history.written = (s.socket e.peer).history.read ++ s.pipe e

theorem inv_start : Inv prost parties (start parties) where
  socket _ := Socket.inv_start
  sized _ _ hf := by cases hf
  bytes _ := rfl

theorem move_spec {s : Session} {e : End} {t : Transfer} {pipe : End → Bytes}
    (h : s.move capacity e t = some pipe) :
    pipe e = s.pipe e ++ t.sent (s.socket e).attachment.unwritten ∧
      s.pipe e.peer = t.got ++ pipe e.peer := by
  cases t with
  | write n =>
    simp only [move] at h
    split at h <;> cases h
    simp [Transfer.sent, Transfer.got, Function.update_of_ne (End.peer_ne e)]
  | read bytes =>
    simp only [move] at h
    split at h
    · rename_i hnil
      split at h <;> cases h
      simp [Transfer.sent, Transfer.got, List.isEmpty_iff.mp hnil]
    · split at h
      · rename_i hbegins
        cases h
        obtain ⟨rest, hrest⟩ := List.isPrefixOf_iff_prefix.mp hbegins
        simp [Transfer.sent, Transfer.got, Function.update_of_ne (End.peer_ne e).symm, ← hrest]
      · cases h
  | none =>
    cases h
    simp [Transfer.sent, Transfer.got]

theorem Inv.step {s s' : Session} {x : End × AttachStep} (inv : Inv prost parties s)
    (hstep : s.step prost parties capacity x = some s') : Inv prost parties s' := by
  obtain ⟨e, x⟩ := x
  simp only [Session.step, bind, Option.bind_eq_some_iff] at hstep
  obtain ⟨k, hk, pipe, hpipe, heq⟩ := hstep
  cases heq
  obtain ⟨hwritten, hread⟩ := Socket.step_bytes hk
  obtain ⟨hout, hin⟩ := move_spec hpipe
  have hpeer : Function.update s.socket e k e.peer = s.socket e.peer :=
    Function.update_of_ne (End.peer_ne e) ..
  refine ⟨?_, ?_, ?_⟩ <;> dsimp only
  · exact (Function.forall_update_iff s.socket fun d k =>
      k.Inv prost (parties d).expected (fun _ => True) (parties d).localNode).mpr
      ⟨(inv.socket e).step (fun _ _ _ _ _ => trivial) hk, fun d _ => inv.socket d⟩
  · exact (Function.forall_update_iff s.socket fun _ k => k.Sized).mpr
      ⟨(inv.sized e).step hk, fun d _ => inv.sized d⟩
  · intro d
    by_cases hd : d = e
    · subst hd
      rw [Function.update_self, hpeer, hwritten, inv.bytes d, hout, List.append_assoc]
    · have hd' : d = e.peer := by
        cases d <;> cases e <;> first | rfl | exact absurd rfl hd
      subst hd'
      have hback : e.peer.peer = e := by cases e <;> rfl
      rw [hpeer, inv.bytes e.peer, hback, Function.update_self, hread, hin, List.append_assoc]

theorem Inv.run {s : Session} {steps : List (End × AttachStep)}
    (hrun : (start parties).run prost parties capacity steps = some s) : Inv prost parties s :=
  foldlM_inv (fun _ _ _ h hs => h.step hs) inv_start hrun

/-- The frames an end decodes are the first of those the other started, its hello among them, and
nothing it has read is refused. -/
theorem Inv.stream {s : Session} (inv : Inv prost parties s) (e : End) :
    (s.socket e.peer).history.decoded <+:
        helloOf (parties e).localNode :: (s.socket e).history.started ∧
      ∀ error, FrameDecoder.decode (s.socket e.peer).attachment.buffered ≠ .error error := by
  have hread := inv.bytes e
  rw [(inv.socket e.peer).read] at hread
  exact decoded_of_stream (inv.socket e).fits (inv.sized e.peer) (inv.socket e).written hread

/-- Two nodes that allow each other; the left one connects. -/
def pair : End → Party
  | .left => ⟨.ofByte 1, some (.ofByte 2)⟩
  | .right => ⟨.ofByte 2, none⟩

def both : OrdSet NodeId := ((∅ : OrdSet NodeId).insert (.ofByte 1)).insert (.ofByte 2)

/-- An end writes its hello, reads that of the other in two pieces, and attaches link 1. -/
def greet (e : End) : List (End × AttachStep) :=
  let hello := frameBytes (helloOf (pair e.peer).localNode)
  [(e, .decode), (e, .read (hello.take 5)), (e, .decode), (e, .read (hello.drop 5)), (e, .decode),
    (e, .check both (some 1)), (e, .work .emitted),
    (e, .work .decode)]

/-- The task of an end waits and has no command. -/
def idle (s : Session) (e : End) : Bool :=
  match (s.socket e).attachment with
  | .serving w => w.isSelecting && w.commands.isEmpty
  | _ => false

theorem idle_iff {s : Session} {e : End} : s.idle e = true ↔
    ∃ w, (s.socket e).attachment = .serving w ∧ w.phase = .selecting ∧ w.commands = [] := by
  simp only [idle]
  split
  · rename_i w hw
    simp [hw, Worker.isSelecting_iff]
  · rename_i hnot
    simp only [Bool.false_eq_true, false_iff]
    rintro ⟨w, hw, -⟩
    exact hnot w hw

/-- The left end sends a ping and reports it, and the right end hands it over. -/
def pinged : List (End × AttachStep) :=
  [(.left, .wrote 40), (.left, .wrote 4), (.right, .wrote 44)] ++ (greet .left ++ greet .right) ++
    [(.left, .submit (.send Connection.ping)), (.left, .work .take), (.left, .work (.wrote 3)),
      (.left, .work (.wrote 5)), (.left, .work .emitted), (.left, .work .decode),
      (.right, .work (.read (frameBytes Connection.ping))), (.right, .work .decode),
      (.right, .work .emitted), (.right, .work .decode)]

theorem pinged_run :
    ∃ s, (start pair).run linkHelloLayout.read pair 64 pinged = some s ∧
      framesIn (s.socket .right).history.handed = [Connection.ping] ∧
      (s.idle .left && s.idle .right && (s.pipe .left).isEmpty) = true := by
  have hfacts : ((start pair).run linkHelloLayout.read pair 64 pinged).map (fun s =>
      (framesIn (s.socket .right).history.handed,
        s.idle .left && s.idle .right && (s.pipe .left).isEmpty)) =
      some ([Connection.ping], true) := by
    decide +kernel
  obtain ⟨s, hrun, heq⟩ := Option.map_eq_some_iff.mp hfacts
  rw [Prod.mk.injEq] at heq
  exact ⟨s, hrun, heq⟩

/-- A frame is reported only when all its bytes are written: the reports are those of the first
frames taken, and what was written is the hello, these frames and part of the next. Once the task of
the other end waits and the pipe is empty, every frame reported has been handed over there, even if
the end has failed since; and if the end waits with an empty queue, so has everything that was
submitted. -/
theorem reported_frames_arrive (steps : List (End × AttachStep)) (s : Session)
    (hrun : (start parties).run prost parties capacity steps = some s) (e : End) (v : Worker)
    (hv : (s.socket e).attachment = .serving v) :
    (∃ done pending part, (s.socket e).history.started = done ++ pending ∧
      reportsIn (s.socket e).history.handed = done.map (Worker.sentEvent v.link) ∧
      (s.socket e).history.written = frameBytes (helloOf (parties e).localNode) ++
        (done.flatMap frameBytes ++ part) ∧
      part <+: pending.flatMap frameBytes) ∧
    ∀ w, (s.socket e.peer).attachment = .serving w → w.phase = .selecting → s.pipe e = [] →
      reportsIn (s.socket e).history.handed <+:
        (framesIn (s.socket e.peer).history.handed).map (Worker.sentEvent v.link) ∧
      (v.phase = .selecting → v.commands = [] →
        framesIn (s.socket e.peer).history.handed = (s.socket e).history.submitted) := by
  have inv := Inv.run hrun
  have hout := inv.socket e
  simp only [Socket.Inv, hv] at hout
  obtain ⟨_, _, -, -, -, hv'⟩ := hout
  obtain ⟨done, pending, part, hstarted, hreports, hwritten, hpending⟩ := hv'.written
  refine ⟨⟨done, pending, part, hstarted, hreports, hwritten, hpending.part⟩, ?_⟩
  intro w hw hidle hempty
  have hin := inv.socket e.peer
  have hbytes := inv.bytes e
  simp only [Socket.Inv, hw] at hin
  obtain ⟨_, hello, -, -, -, hw'⟩ := hin
  have hsized := inv.sized e.peer
  have hread := hw'.read
  obtain ⟨held, hdecoded, hheld⟩ := hw'.decoded
  simp only [Worker.Held, hidle] at hheld
  rw [hheld, List.append_nil] at hdecoded
  -- both ends' accounts of the same bytes, read by the decoder
  have hdrain := drain_flatMap FrameDecoder.incremental
    (fun frame hf => FrameDecoder.decode_frameBytes (hsized frame hf)) w.buffered
  rw [drain_none FrameDecoder.incremental (hw'.quiet hidle), ← hread] at hdrain
  have hdone : ∀ frame ∈ helloOf (parties e).localNode :: done,
      frame.payload.length ≤ maxPayloadLen := by
    refine List.forall_mem_cons.mpr ⟨length_helloOf _, fun frame hf => hv'.fits frame ?_⟩
    rw [hstarted]
    exact List.mem_append_left _ hf
  have hdrain' := drain_flatMap FrameDecoder.incremental
    (fun frame hf => FrameDecoder.decode_frameBytes (hdone frame hf)) part
  rw [List.flatMap_cons, List.append_assoc, ← hwritten, hbytes, hempty, List.append_nil, hdrain,
    hdecoded] at hdrain'
  injection hdrain' with hitems hleft
  rw [List.append_nil, List.cons_append, List.cons.injEq] at hitems
  have hframes := hitems.2
  refine ⟨?_, ?_⟩
  · rw [hreports, hframes, List.map_append]
    exact List.prefix_append ..
  · intro hselecting hqueue
    obtain ⟨refused, hsubmitted, hrefused⟩ := hv'.queue
    simp only [Worker.Pending, hselecting] at hpending
    have hnone : refused = [] := hrefused (by simp [Worker.hasLeft, hselecting])
    have hpart := drain_none FrameDecoder.incremental FrameDecoder.decode_nil
    rw [hframes, hsubmitted, hstarted, hpending.1, hpending.2, hpart, hnone, hqueue]
    simp [sendsIn]

theorem reported_frames_arrive_pinged :
    ∃ s v w, (start pair).run linkHelloLayout.read pair 64 pinged = some s ∧
      (s.socket .left).attachment = .serving v ∧ (s.socket .right).attachment = .serving w ∧
      framesIn (s.socket .right).history.handed = (s.socket .left).history.submitted ∧
      reportsIn (s.socket .left).history.handed <+:
        (framesIn (s.socket .right).history.handed).map (Worker.sentEvent v.link) := by
  obtain ⟨s, hrun, -, hidle⟩ := pinged_run
  simp only [Bool.and_eq_true] at hidle
  obtain ⟨v, hv, hvphase, hvqueue⟩ := idle_iff.mp hidle.1.1
  obtain ⟨w, hw, hwphase, -⟩ := idle_iff.mp hidle.1.2
  have harrive := (reported_frames_arrive pinged s hrun .left v hv).2 w hw hwphase
    (List.isEmpty_iff.mp hidle.2)
  exact ⟨s, v, w, hrun, hv, hw, harrive.2 hvphase hvqueue, harrive.1⟩

end Session
end Transport
end MeshBus
