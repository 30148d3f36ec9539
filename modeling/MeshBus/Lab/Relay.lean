import MeshBus.Lib.Emit
import MeshBus.Wire.Frame

/-!
# Lab.Relay

`forward_frames` of `mblab`: one direction of the proxy that stands between two nodes of a lab and
makes their link slow, narrow or lossy. It decodes the frames it reads, holds each back for the
latency and for the time its bits take, drops some by a sample of their number, and encodes the
others again. A hello is neither held back nor dropped.

A step names what came from outside: the conditions as they are now, what the sockets took or gave,
and the end by `shutdown` or with the other direction. The loss is the number that
`(loss_percent * 10_000.0).round() as u64` gives.

The relay keeps frames whole and in order (`Relayed.Inv`), and it keeps to the bandwidth: what it
lets through in a time is no more than the bits the line takes in that time (`bandwidth_respected`).
-/

namespace MeshBus
namespace Lab

open Wire

/-- `ConditionsRequest`, with the loss as the source uses it. -/
structure Conditions where
  latencyMs : UInt64
  lossPerMillion : UInt64
  bandwidthKbps : UInt64

namespace Conditions

/-- A bandwidth of zero is no limit. -/
def serializationMs (current : Conditions) (encodedLen : Nat) : Nat :=
  if current.bandwidthKbps = 0 then 0
  else satAdd (satMul encodedLen 8) (current.bandwidthKbps.toNat - 1) / current.bandwidthKbps.toNat

def delayMs (current : Conditions) (encodedLen : Nat) : Nat :=
  satAdd current.latencyMs.toNat (current.serializationMs encodedLen)

end Conditions

def mix64 (value : UInt64) : UInt64 :=
  let value := value ^^^ (value >>> 30)
  let value := value * 0xbf58476d1ce4e5b9
  let value := value ^^^ (value >>> 27)
  let value := value * 0x94d049bb133111eb
  value ^^^ (value >>> 31)

/-- The sample of a frame is under the loss. -/
def loses (seed sequence : UInt64) (current : Conditions) : Bool :=
  decide ((mix64 (seed ^^^ sequence)).toNat % 1000000 < min current.lossPerMillion.toNat 1000000)

/-- Where `forward_frames` is. -/
inductive RelayPhase where
  | decoding
  /-- It holds a frame back. -/
  | sleeping (due : MonoTime) (frame : WireFrame) (encoded : Bytes) (current : Conditions)
  /-- It awaits `write_all`; these bytes are not written yet. -/
  | writing (rest : Bytes)
  /-- It awaits `read_buf`. -/
  | reading
  | gone

structure Relay where
  phase : RelayPhase
  buffered : Bytes
  sequence : UInt64

inductive RelayStep where
  | decode (current : Conditions)
  | wake
  | wrote (n : Nat)
  | read (bytes : Bytes)
  /-- An error of a socket. -/
  | fail
  /-- `shutdown`, or the other direction has ended. -/
  | stop

namespace Relay

def start : Relay := ⟨.decoding, [], 0⟩

/-- A frame is taken from the buffer. -/
def advance (r : Relay) (rest : Bytes) : Relay :=
  { r with buffered := rest, sequence := r.sequence + 1 }

/-- The end of the body of the loop, after the delay. -/
def sample (seed : UInt64) (r : Relay) (encoded : Bytes) (current : Conditions) : Relay :=
  { r with phase := if loses seed r.sequence current then .decoding else .writing encoded }

def step (seed : UInt64) (now : MonoTime) (r : Relay) : RelayStep → Option Relay
  | .decode current =>
    match r.phase with
    | .decoding =>
      match FrameDecoder.decode r.buffered with
      | .error _ => some { r with phase := .gone }
      | .ok none => some { r with phase := .reading }
      | .ok (some (frame, rest)) =>
        match FrameEncoder.encode frame with
        | .error _ => some { r with phase := .gone, buffered := rest }
        | .ok encoded =>
          if frame.frameType = .linkHello then
            some { r.advance rest with phase := .writing encoded }
          else if 0 < current.delayMs encoded.length then
            some { r.advance rest with
              phase := .sleeping (now + current.delayMs encoded.length) frame encoded current }
          else some ((r.advance rest).sample seed encoded current)
    | _ => none
  | .wake =>
    match r.phase with
    | .sleeping due _ encoded current =>
      if due ≤ now then some (r.sample seed encoded current) else none
    | _ => none
  | .wrote n =>
    match r.phase with
    | .writing rest =>
      if 0 < n ∧ n < rest.length then some { r with phase := .writing (rest.drop n) }
      else if n = rest.length then some { r with phase := .decoding }
      else none
    | _ => none
  | .read bytes =>
    match r.phase with
    | .reading =>
      if bytes.isEmpty then some { r with phase := .gone }
      else some { r with phase := .decoding, buffered := r.buffered ++ bytes }
    | _ => none
  | .fail =>
    match r.phase with
    | .writing _ | .reading => some { r with phase := .gone }
    | _ => none
  | .stop =>
    match r.phase with
    | .sleeping _ _ _ _ | .writing _ | .reading => some { r with phase := .gone }
    | _ => none

/-- The bytes that wait to be written. -/
def unwritten (r : Relay) : Bytes :=
  match r.phase with
  | .writing rest => rest
  | _ => []

/-- The frame that is held back. -/
def slept (r : Relay) : List WireFrame :=
  match r.phase with
  | .sleeping _ frame _ _ => [frame]
  | _ => []

def isWriting (r : Relay) : Bool :=
  match r.phase with
  | .writing _ => true
  | _ => false

/-- Its sockets are closed. -/
def isGone (r : Relay) : Bool :=
  match r.phase with
  | .gone => true
  | _ => false

end Relay

/-! ## The relay with its history -/

structure RelayLog where
  read : Bytes
  written : Bytes
  decoded : List WireFrame
  /-- The frames that were not dropped. -/
  kept : List WireFrame

/-- What a step from `r` to `r'` adds. -/
def RelayLog.note (log : RelayLog) (r r' : Relay) : RelayStep → RelayLog
  | .decode _ =>
    match FrameDecoder.decode r.buffered with
    | .ok (some (frame, _)) =>
      { log with
        decoded := log.decoded ++ [frame]
        kept := log.kept ++ if r'.isWriting then [frame] else [] }
    | _ => log
  | .wake => { log with kept := log.kept ++ if r'.isWriting then r.slept else [] }
  | .wrote n => { log with written := log.written ++ r.unwritten.take n }
  | .read bytes => { log with read := log.read ++ bytes }
  | .fail | .stop => log

/-- `clock` is the time of the last step. -/
structure Relayed where
  relay : Relay
  log : RelayLog
  clock : MonoTime

namespace Relayed

def start (clock : MonoTime) : Relayed := ⟨.start, ⟨[], [], [], []⟩, clock⟩

def step (seed : UInt64) (x : Relayed) (s : MonoTime × RelayStep) : Option Relayed :=
  if x.clock ≤ s.1 then
    (x.relay.step seed s.1 s.2).map fun r => ⟨r, x.log.note x.relay r s.2, s.1⟩
  else none

def run (seed : UInt64) (x : Relayed) (steps : List (MonoTime × RelayStep)) : Option Relayed :=
  steps.foldlM (step seed) x

end Relayed

/-! ## Steps -/

namespace Relay

/-- Everything a step can do. -/
inductive Acts (seed : UInt64) (now : MonoTime) (r : Relay) (log : RelayLog) :
    RelayStep → Relay → RelayLog → Prop
  | idles {current : Conditions} {phase' : RelayPhase} (phase : r.phase = .decoding)
      (next : phase' = .reading ∨ phase' = .gone) :
      Acts seed now r log (.decode current) { r with phase := phase' } log
  | passes {current : Conditions} {frame : WireFrame} {rest : Bytes} (phase : r.phase = .decoding)
      (decode : FrameDecoder.decode r.buffered = .ok (some (frame, rest)))
      (free : frame.frameType ≠ .linkHello → current.delayMs (frameBytes frame).length = 0) :
      Acts seed now r log (.decode current)
        { r.advance rest with phase := .writing (frameBytes frame) }
        { log with decoded := log.decoded ++ [frame], kept := log.kept ++ [frame] }
  | holds {current : Conditions} {frame : WireFrame} {rest : Bytes} (phase : r.phase = .decoding)
      (decode : FrameDecoder.decode r.buffered = .ok (some (frame, rest)))
      (other : frame.frameType ≠ .linkHello) :
      Acts seed now r log (.decode current)
        { r.advance rest with
          phase := .sleeping (now + current.delayMs (frameBytes frame).length) frame
            (frameBytes frame) current }
        { log with decoded := log.decoded ++ [frame] }
  | drops {current : Conditions} {frame : WireFrame} {rest : Bytes} (phase : r.phase = .decoding)
      (decode : FrameDecoder.decode r.buffered = .ok (some (frame, rest)))
      (other : frame.frameType ≠ .linkHello)
      (lost : loses seed (r.advance rest).sequence current = true) :
      Acts seed now r log (.decode current) { r.advance rest with phase := .decoding }
        { log with decoded := log.decoded ++ [frame] }
  | wakesLost {due : MonoTime} {frame : WireFrame} {encoded : Bytes} {current : Conditions}
      (phase : r.phase = .sleeping due frame encoded current) (late : due ≤ now)
      (lost : loses seed r.sequence current = true) :
      Acts seed now r log .wake { r with phase := .decoding } log
  | wakes {due : MonoTime} {frame : WireFrame} {encoded : Bytes} {current : Conditions}
      (phase : r.phase = .sleeping due frame encoded current) (late : due ≤ now) :
      Acts seed now r log .wake { r with phase := .writing encoded }
        { log with kept := log.kept ++ [frame] }
  | writes {rest : Bytes} {n : Nat} (phase : r.phase = .writing rest) :
      Acts seed now r log (.wrote n) { r with phase := .writing (rest.drop n) }
        { log with written := log.written ++ rest.take n }
  | wrote {rest : Bytes} (phase : r.phase = .writing rest) :
      Acts seed now r log (.wrote rest.length) { r with phase := .decoding }
        { log with written := log.written ++ rest }
  | reads {bytes : Bytes} {phase' : RelayPhase} (phase : r.phase = .reading)
      (next : phase' = .decoding ∨ phase' = .gone) :
      Acts seed now r log (.read bytes) { r with phase := phase', buffered := r.buffered ++ bytes }
        { log with read := log.read ++ bytes }
  | leaves {s : RelayStep} (ends : s = .fail ∨ s = .stop) :
      Acts seed now r log s { r with phase := .gone } log

theorem sample_cases (seed : UInt64) (r : Relay) (encoded : Bytes) (current : Conditions) :
    (loses seed r.sequence current = true ∧
      r.sample seed encoded current = { r with phase := .decoding }) ∨
    r.sample seed encoded current = { r with phase := .writing encoded } := by
  unfold sample
  cases loses seed r.sequence current with
  | true => exact .inl ⟨rfl, rfl⟩
  | false => exact .inr rfl

theorem step_acts {seed : UInt64} {now : MonoTime} {r r' : Relay} {s : RelayStep}
    (hstep : r.step seed now s = some r') (log : RelayLog) :
    Acts seed now r log s r' (log.note r r' s) := by
  cases s with
  | decode current =>
    simp only [step] at hstep
    split at hstep
    · rename_i hphase
      split at hstep
      · rename_i e hdec
        cases hstep
        simp only [RelayLog.note, hdec]
        exact .idles hphase (.inr rfl)
      · rename_i hdec
        cases hstep
        simp only [RelayLog.note, hdec]
        exact .idles hphase (.inl rfl)
      · rename_i frame rest hdec
        rw [FrameEncoder.encode_of_le (FrameDecoder.decode_sound hdec).1] at hstep
        dsimp only at hstep
        split at hstep
        · rename_i hhello
          cases hstep
          simp only [RelayLog.note, hdec]
          exact .passes hphase hdec (absurd hhello)
        · rename_i hother
          split at hstep
          · cases hstep
            simp only [RelayLog.note, hdec, isWriting, Bool.false_eq_true, if_false,
              List.append_nil]
            exact .holds hphase hdec hother
          · rename_i hinstant
            cases hstep
            rcases sample_cases seed (r.advance rest) (frameBytes frame) current with
              ⟨hlost, hsample⟩ | hsample <;> rw [hsample]
            · simp only [RelayLog.note, hdec, isWriting, Bool.false_eq_true, if_false,
                List.append_nil]
              exact .drops hphase hdec hother hlost
            · simp only [RelayLog.note, hdec, isWriting, if_true]
              exact .passes hphase hdec fun _ => Nat.eq_zero_of_not_pos hinstant
    · cases hstep
  | wake =>
    simp only [step] at hstep
    split at hstep
    · rename_i due frame encoded current hphase
      split at hstep
      · rename_i hlate
        cases hstep
        rcases sample_cases seed r encoded current with ⟨hlost, hsample⟩ | hsample <;>
          rw [hsample]
        · simp only [RelayLog.note, isWriting, Bool.false_eq_true, if_false, List.append_nil]
          exact .wakesLost hphase hlate hlost
        · simp only [RelayLog.note, isWriting, slept, hphase, if_true]
          exact .wakes hphase hlate
      · cases hstep
    · cases hstep
  | wrote n =>
    simp only [step] at hstep
    split at hstep
    · rename_i rest hphase
      simp only [RelayLog.note, unwritten, hphase]
      split at hstep
      · cases hstep
        exact .writes hphase
      · split at hstep
        · rename_i hn
          subst hn
          cases hstep
          rw [List.take_length]
          exact .wrote hphase
        · cases hstep
    · cases hstep
  | read bytes =>
    simp only [step] at hstep
    split at hstep
    · rename_i hphase
      split at hstep
      · rename_i hnil
        cases hstep
        rw [List.isEmpty_iff.mp hnil]
        have hacts : Acts seed now r log (.read [])
            { r with phase := .gone, buffered := r.buffered ++ [] }
            { log with read := log.read ++ [] } := .reads hphase (.inr rfl)
        rwa [List.append_nil] at hacts
      · cases hstep
        exact .reads hphase (.inl rfl)
    · cases hstep
  | fail =>
    simp only [step] at hstep
    split at hstep <;> cases hstep <;> exact .leaves (.inl rfl)
  | stop =>
    simp only [step] at hstep
    split at hstep <;> cases hstep <;> exact .leaves (.inr rfl)

end Relay

/-! ## Frames stay whole and in order -/

def isHello (frame : WireFrame) : Bool := decide (frame.frameType = .linkHello)

/-- `kept` is `frames` without some of those that are no hello. -/
structure Thinned (kept frames : List WireFrame) : Prop where
  sublist : kept.Sublist frames
  hellos : kept.filter isHello = frames.filter isHello

namespace Thinned

variable {kept frames : List WireFrame}

theorem keep (h : Thinned kept frames) (frame : WireFrame) :
    Thinned (kept ++ [frame]) (frames ++ [frame]) where
  sublist := h.sublist.append (List.Sublist.refl _)
  hellos := by rw [List.filter_append, List.filter_append, h.hellos]

theorem drop (h : Thinned kept frames) {frame : WireFrame} (hother : frame.frameType ≠ .linkHello) :
    Thinned kept (frames ++ [frame]) where
  sublist := h.sublist.trans (List.sublist_append_left ..)
  hellos := by
    rw [List.filter_append, ← h.hellos, List.filter_cons_of_neg (by simp [isHello, hother]),
      List.filter_nil, List.append_nil]

/-- A hello at the front stays there. -/
theorem cons {hello : WireFrame} (h : Thinned kept (hello :: frames))
    (hhello : hello.frameType = .linkHello) :
    ∃ kept', kept = hello :: kept' ∧ kept'.Sublist frames := by
  obtain ⟨hsub, hhellos⟩ := h
  cases hsub with
  | cons _ hsub =>
    -- one hello fewer would be left
    rw [List.filter_cons_of_pos (by simp [isHello, hhello])] at hhellos
    have hlen := (hsub.filter isHello).length_le
    rw [hhellos, List.length_cons] at hlen
    omega
  | cons_cons _ hsub => exact ⟨_, rfl, hsub⟩

end Thinned

namespace Relayed

variable {seed : UInt64} {x x' : Relayed}

theorem step_acts {s : MonoTime × RelayStep} (hstep : x.step seed s = some x') :
    x.clock ≤ s.1 ∧ x'.clock = s.1 ∧
      Relay.Acts seed s.1 x.relay x.log s.2 x'.relay x'.log := by
  simp only [step] at hstep
  split at hstep
  · rename_i hclock
    obtain ⟨r, hr, rfl⟩ := Option.map_eq_some_iff.mp hstep
    exact ⟨hclock, rfl, Relay.step_acts hr x.log⟩
  · cases hstep

/-- The bytes read are the frames decoded and the buffer; the bytes written are those of the frames
kept, up to what is being written; and the frames kept are those decoded, without some. -/
structure Inv (x : Relayed) : Prop where
  read : x.log.read = x.log.decoded.flatMap frameBytes ++ x.relay.buffered
  sized : ∀ frame ∈ x.log.decoded, frame.payload.length ≤ maxPayloadLen
  held : ∀ due frame encoded current, x.relay.phase = .sleeping due frame encoded current →
    encoded = frameBytes frame ∧ frame.frameType ≠ .linkHello
  settled : ∃ settled, x.log.decoded = settled ++ x.relay.slept ∧ Thinned x.log.kept settled
  begun : x.log.written <+: x.log.kept.flatMap frameBytes
  pending : x.relay.isGone = false →
    x.log.written ++ x.relay.unwritten = x.log.kept.flatMap frameBytes

theorem inv_start (clock : MonoTime) : (start clock).Inv where
  read := rfl
  sized _ h := by cases h
  held _ _ _ _ h := by cases h
  settled := ⟨[], rfl, .refl _, rfl⟩
  begun := List.nil_prefix
  pending _ := rfl

theorem Inv.decodes (inv : x.Inv) {frame : WireFrame} {rest : Bytes}
    (hdec : FrameDecoder.decode x.relay.buffered = .ok (some (frame, rest))) :
    x.log.read = (x.log.decoded ++ [frame]).flatMap frameBytes ++ rest ∧
      ∀ f ∈ x.log.decoded ++ [frame], f.payload.length ≤ maxPayloadLen := by
  obtain ⟨hsized, hbuffered⟩ := FrameDecoder.decode_sound hdec
  refine ⟨?_, ?_⟩
  · rw [inv.read, hbuffered, List.flatMap_append, List.flatMap_singleton, List.append_assoc]
  · intro f hf
    rcases List.mem_append.mp hf with hf | hf
    · exact inv.sized f hf
    · rw [List.mem_singleton.mp hf]
      exact hsized

/-- What was decoded is the frames kept, without some. -/
theorem Inv.thinned (inv : x.Inv) : Thinned x.log.kept x.log.decoded := by
  obtain ⟨settled, hsettled, hthinned⟩ := inv.settled
  cases hphase : x.relay.phase with
  | sleeping due frame encoded current =>
    rw [hsettled]
    simp only [Relay.slept, hphase]
    exact hthinned.drop (inv.held _ _ _ _ hphase).2
  | _ =>
    rw [hsettled]
    simp only [Relay.slept, hphase, List.append_nil]
    exact hthinned

theorem Inv.step {s : MonoTime × RelayStep} (inv : x.Inv) (hstep : x.step seed s = some x') :
    x'.Inv := by
  obtain ⟨-, -, acts⟩ := step_acts hstep
  obtain ⟨r', log', clock'⟩ := x'
  obtain ⟨now, s⟩ := s
  have hthinned := inv.thinned
  have hpending := inv.pending
  have hflushed : x.relay.isGone = false → x.relay.unwritten = [] →
      x.log.written = x.log.kept.flatMap frameBytes := by
    intro hgone hunwritten
    rw [← hpending hgone, hunwritten, List.append_nil]
  dsimp only at acts
  cases acts with
  | idles phase next =>
    have hwritten := hflushed (by simp [Relay.isGone, phase]) (by simp [Relay.unwritten, phase])
    refine ⟨inv.read, inv.sized, ?_, ⟨_, ?_, hthinned⟩, inv.begun, fun _ => ?_⟩ <;>
      rcases next with rfl | rfl <;> simp [Relay.slept, Relay.unwritten, hwritten]
  | passes phase decode free =>
    have hwritten := hflushed (by simp [Relay.isGone, phase]) (by simp [Relay.unwritten, phase])
    obtain ⟨hread, hsized⟩ := inv.decodes decode
    refine ⟨hread, hsized, by simp, ⟨_, (List.append_nil _).symm, hthinned.keep _⟩, ?_, fun _ => ?_⟩
    · exact inv.begun.trans (by simp)
    · simp [Relay.unwritten, hwritten]
  | holds phase decode other =>
    have hwritten := hflushed (by simp [Relay.isGone, phase]) (by simp [Relay.unwritten, phase])
    obtain ⟨hread, hsized⟩ := inv.decodes decode
    refine ⟨hread, hsized, ?_, ⟨_, rfl, hthinned⟩, inv.begun, fun _ => ?_⟩
    · rintro _ _ _ _ ⟨⟩
      exact ⟨rfl, other⟩
    · simp [Relay.unwritten, hwritten]
  | drops phase decode other lost =>
    have hwritten := hflushed (by simp [Relay.isGone, phase]) (by simp [Relay.unwritten, phase])
    obtain ⟨hread, hsized⟩ := inv.decodes decode
    exact ⟨hread, hsized, by simp, ⟨_, (List.append_nil _).symm, hthinned.drop other⟩, inv.begun,
      fun _ => by simp [Relay.unwritten, hwritten]⟩
  | wakesLost phase late lost =>
    have hwritten := hflushed (by simp [Relay.isGone, phase]) (by simp [Relay.unwritten, phase])
    exact ⟨inv.read, inv.sized, by simp, ⟨_, (List.append_nil _).symm, hthinned⟩, inv.begun,
      fun _ => by simp [Relay.unwritten, hwritten]⟩
  | wakes phase late =>
    obtain ⟨settled, hsettled, hthinned⟩ := inv.settled
    obtain ⟨rfl, -⟩ := inv.held _ _ _ _ phase
    have hwritten := hflushed (by simp [Relay.isGone, phase]) (by simp [Relay.unwritten, phase])
    simp only [Relay.slept, phase] at hsettled
    refine ⟨inv.read, inv.sized, by simp, ⟨_, (List.append_nil _).symm, ?_⟩, ?_, fun _ => ?_⟩
    · dsimp only
      rw [hsettled]
      exact hthinned.keep _
    · exact inv.begun.trans (by simp)
    · simp [Relay.unwritten, hwritten]
  | writes phase =>
    simp only [Relay.isGone, Relay.unwritten, phase, forall_const] at hpending
    refine ⟨inv.read, inv.sized, by simp, ⟨_, (List.append_nil _).symm, hthinned⟩, ?_,
      fun _ => ?_⟩
    · dsimp only
      rw [← hpending]
      exact (List.prefix_append_right_inj _).mpr (List.take_prefix ..)
    · dsimp only [Relay.unwritten]
      rw [List.append_assoc, List.take_append_drop, hpending]
  | wrote phase =>
    simp only [Relay.isGone, Relay.unwritten, phase, forall_const] at hpending
    refine ⟨inv.read, inv.sized, by simp, ⟨_, (List.append_nil _).symm, hthinned⟩, ?_,
      fun _ => ?_⟩
    · dsimp only
      rw [hpending]
    · dsimp only [Relay.unwritten]
      rw [List.append_nil, hpending]
  | reads phase next =>
    have hwritten := hflushed (by simp [Relay.isGone, phase]) (by simp [Relay.unwritten, phase])
    refine ⟨?_, inv.sized, ?_, ⟨_, ?_, hthinned⟩, inv.begun, fun _ => ?_⟩
    · dsimp only
      rw [inv.read, List.append_assoc]
    · rcases next with rfl | rfl <;> simp
    · rcases next with rfl | rfl <;> simp [Relay.slept]
    · rcases next with rfl | rfl <;> simp [Relay.unwritten, hwritten]
  | leaves ends =>
    exact ⟨inv.read, inv.sized, by simp, ⟨_, (List.append_nil _).symm, hthinned⟩, inv.begun,
      by simp [Relay.isGone]⟩

theorem Inv.run {clock : MonoTime} {steps : List (MonoTime × RelayStep)}
    (h : (start clock).run seed steps = some x) : x.Inv :=
  foldlM_inv (fun _ _ _ hinv hs => hinv.step hs) (inv_start clock) h

/-! ### Without loss -/

/-- Every frame decoded is kept, but for one that is held back. -/
structure Lossless (x : Relayed) : Prop where
  held : ∀ due frame encoded current, x.relay.phase = .sleeping due frame encoded current →
    current.lossPerMillion = 0
  all : x.relay.isGone = false → x.log.decoded = x.log.kept ++ x.relay.slept
  begun : x.log.kept <+: x.log.decoded

theorem not_loses {sequence : UInt64} {current : Conditions} (h : current.lossPerMillion = 0) :
    loses seed sequence current ≠ true := by
  simp [loses, h]

theorem Lossless.step {s : MonoTime × RelayStep} (h : x.Lossless)
    (hs : ∀ current, s.2 = .decode current → current.lossPerMillion = 0)
    (hstep : x.step seed s = some x') : x'.Lossless := by
  obtain ⟨-, -, acts⟩ := step_acts hstep
  obtain ⟨r', log', clock'⟩ := x'
  obtain ⟨now, s⟩ := s
  dsimp only at acts hs
  -- between two frames everything decoded is kept
  have hidle : x.relay.isGone = false → x.relay.slept = [] → x.log.decoded = x.log.kept := by
    intro hgone hslept
    rw [h.all hgone, hslept, List.append_nil]
  have hdecoding : x.relay.phase = .decoding → x.log.decoded = x.log.kept :=
    fun hphase => hidle (by simp [Relay.isGone, hphase]) (by simp [Relay.slept, hphase])
  cases acts with
  | idles phase next =>
    rcases next with rfl | rfl <;>
      exact ⟨by simp, fun _ => by simp [hdecoding phase, Relay.slept], h.begun⟩
  | passes phase decode free =>
    refine ⟨by simp, fun _ => ?_, ?_⟩
    · simp [hdecoding phase, Relay.slept]
    · simp [hdecoding phase]
  | holds phase decode other =>
    refine ⟨?_, fun _ => ?_, ?_⟩
    · rintro _ _ _ _ ⟨⟩
      exact hs _ rfl
    · simp [hdecoding phase, Relay.slept]
    · simp [hdecoding phase]
  | drops phase decode other lost => exact absurd lost (not_loses (hs _ rfl))
  | wakesLost phase late lost => exact absurd lost (not_loses (h.held _ _ _ _ phase))
  | wakes phase late =>
    have hall := h.all (by simp [Relay.isGone, phase])
    simp only [Relay.slept, phase] at hall
    exact ⟨by simp, fun _ => by simp [hall, Relay.slept], by simp [hall]⟩
  | writes phase | wrote phase =>
    have hall := hidle (by simp [Relay.isGone, phase]) (by simp [Relay.slept, phase])
    exact ⟨by simp, fun _ => by simp [hall, Relay.slept], h.begun⟩
  | reads phase next =>
    have hall := hidle (by simp [Relay.isGone, phase]) (by simp [Relay.slept, phase])
    rcases next with rfl | rfl
    · exact ⟨by simp, fun _ => by simp [hall, Relay.slept], h.begun⟩
    · exact ⟨by simp, by simp [Relay.isGone], h.begun⟩
  | leaves ends => exact ⟨by simp, by simp [Relay.isGone], h.begun⟩

end Relayed

/-! ## The bandwidth -/

/-- The bits of frames, hellos apart. -/
def bits (frames : List WireFrame) : Nat :=
  ((frames.filter fun frame => !isHello frame).map fun frame => 8 * (frameBytes frame).length).sum

theorem bits_append (a b : List WireFrame) : bits (a ++ b) = bits a + bits b := by
  simp [bits]

theorem bits_hello {frame : WireFrame} (h : frame.frameType = .linkHello) : bits [frame] = 0 := by
  simp [bits, isHello, h]

theorem bits_other {frame : WireFrame} (h : frame.frameType ≠ .linkHello) :
    bits [frame] = 8 * (frameBytes frame).length := by
  simp [bits, isHello, h]

namespace Conditions

/-- The time that is waited is enough for the bits of a frame. -/
theorem bits_le_delay {current : Conditions} {frame : WireFrame}
    (hsized : frame.payload.length ≤ maxPayloadLen) (hlimit : 0 < current.bandwidthKbps.toNat) :
    8 * (frameBytes frame).length ≤
      current.bandwidthKbps.toNat * current.delayMs (frameBytes frame).length := by
  have hlen := FrameDecoder.length_frameBytes frame
  generalize (frameBytes frame).length = len at hlen ⊢
  have hzero : current.bandwidthKbps ≠ 0 := by
    intro h
    rw [h] at hlimit
    exact absurd hlimit (by decide)
  have htop := current.bandwidthKbps.toNat_lt
  generalize hb : current.bandwidthKbps.toNat = b at *
  have hsmall : len * 8 ≤ 2 ^ 24 := by
    unfold headerLen maxPayloadLen at *
    omega
  -- the division rounds up, also where the sum saturates
  have hserial : 8 * len ≤ b * current.serializationMs len ∧
      current.serializationMs len ≤ u64Max := by
    have hmul : satMul len 8 = len * 8 := satMul_eq (by unfold u64Max; omega)
    simp only [serializationMs, if_neg hzero, hb, hmul]
    refine ⟨?_, (Nat.div_le_self ..).trans (Nat.min_le_right ..)⟩
    by_cases hfits : len * 8 + (b - 1) ≤ u64Max
    · rw [satAdd_eq hfits]
      have hround := Nat.lt_mul_div_succ (len * 8 + (b - 1)) hlimit
      rw [Nat.mul_add] at hround
      omega
    · have hsat : satAdd (len * 8) (b - 1) = u64Max := Nat.min_eq_right (by omega)
      have hone : 1 ≤ u64Max / b := (Nat.one_le_div_iff hlimit).mpr (by unfold u64Max; omega)
      rw [hsat]
      calc 8 * len ≤ b * 1 := by unfold u64Max at hfits; omega
        _ ≤ b * (u64Max / b) := Nat.mul_le_mul_left b hone
  refine hserial.1.trans (Nat.mul_le_mul_left b ?_)
  exact Nat.le_min.mpr ⟨Nat.le_add_left .., hserial.2⟩

end Conditions

namespace Relayed

variable {seed : UInt64} {x x' : Relayed} {begin : MonoTime} {limit : Nat}

/-- The frames kept fit into the time since `begin`, and with one that is held back into the time
until it is due. -/
structure Paced (begin : MonoTime) (limit : Nat) (x : Relayed) : Prop where
  later : begin ≤ x.clock
  kept : bits x.log.kept ≤ limit * (x.clock - begin)
  held : ∀ due frame encoded current, x.relay.phase = .sleeping due frame encoded current →
    bits (x.log.kept ++ [frame]) ≤ limit * (due - begin)

theorem paced_start : Paced begin limit (start begin) where
  later := Nat.le_refl _
  kept := Nat.zero_le _
  held _ _ _ _ h := by cases h

theorem Paced.step {s : MonoTime × RelayStep} (h : Paced begin limit x)
    (hs : ∀ current, s.2 = .decode current →
      0 < current.bandwidthKbps.toNat ∧ current.bandwidthKbps.toNat ≤ limit)
    (hstep : x.step seed s = some x') : Paced begin limit x' := by
  obtain ⟨hclock, hnow, acts⟩ := step_acts hstep
  obtain ⟨r', log', clock'⟩ := x'
  obtain ⟨now, s⟩ := s
  dsimp only at acts hs hclock hnow
  subst hnow
  have hlater : begin ≤ clock' := h.later.trans hclock
  have hkept : bits x.log.kept ≤ limit * (clock' - begin) :=
    h.kept.trans (Nat.mul_le_mul_left limit (Nat.sub_le_sub_right hclock begin))
  cases acts with
  | @holds current frame rest phase decode other =>
    refine ⟨hlater, hkept, ?_⟩
    rintro _ _ _ _ ⟨⟩
    obtain ⟨hpos, hle⟩ := hs _ rfl
    have hsized := (FrameDecoder.decode_sound decode).1
    have hdelay := Conditions.bits_le_delay hsized hpos
    have hbits : bits [frame] ≤ limit * current.delayMs (frameBytes frame).length := by
      rw [bits_other other]
      exact hdelay.trans (Nat.mul_le_mul_right _ hle)
    have htime : clock' + current.delayMs (frameBytes frame).length - begin =
        (clock' - begin) + current.delayMs (frameBytes frame).length :=
      Nat.sub_add_comm hlater
    rw [bits_append, htime, Nat.mul_add]
    exact Nat.add_le_add hkept hbits
  | @passes current frame rest phase decode free =>
    refine ⟨hlater, ?_, by simp⟩
    dsimp only
    rw [bits_append]
    by_cases hhello : frame.frameType = .linkHello
    · rw [bits_hello hhello]
      exact hkept
    · -- a frame takes time on a line with a bandwidth
      have hdelay := Conditions.bits_le_delay (FrameDecoder.decode_sound decode).1 (hs _ rfl).1
      rw [free hhello, Nat.mul_zero, FrameDecoder.length_frameBytes, headerLen] at hdelay
      omega
  | wakes phase late =>
    refine ⟨hlater, ?_, by simp⟩
    exact (h.held _ _ _ _ phase).trans
      (Nat.mul_le_mul_left limit (Nat.sub_le_sub_right late begin))
  | idles phase next | reads phase next =>
    refine ⟨hlater, hkept, ?_⟩
    rcases next with rfl | rfl <;> simp
  | _ => exact ⟨hlater, hkept, by simp⟩

/-- On a line with at most `limit` bits per millisecond, the frames that a relay has let through
since it began, hellos apart, have no more bits than the line carries in that time: whatever is
sent, however the bytes are cut and however the conditions change. -/
theorem bandwidth_respected {steps : List (MonoTime × RelayStep)}
    (hlimit : ∀ now current, (now, .decode current) ∈ steps →
      0 < current.bandwidthKbps.toNat ∧ current.bandwidthKbps.toNat ≤ limit)
    (h : (start begin).run seed steps = some x) :
    bits x.log.kept ≤ limit * (x.clock - begin) ∧
      x.log.written <+: x.log.kept.flatMap frameBytes := by
  have hpaced : Paced begin limit x := by
    refine AlongM.inv (fun _ _ _ hp hs hstep => hp.step hs hstep) (alongM_of_forall ?_)
      paced_start h
    rintro ⟨now, s⟩ hmem current rfl
    exact hlimit now current hmem
  exact ⟨hpaced.kept, (Inv.run h).begun⟩

/-- A line of one bit per millisecond, without latency or loss. -/
def narrow : Conditions := ⟨0, 0, 1⟩

/-- The frame `ping` has eight bytes: it is read in two pieces and written after 64 milliseconds. -/
def narrowSteps : List (MonoTime × RelayStep) :=
  let ping := frameBytes ⟨.ping, .control, []⟩
  [(10, .decode narrow), (10, .read (ping.take 3)), (10, .decode narrow), (11, .read (ping.drop 3)),
    (11, .decode narrow), (75, .wake), (75, .wrote 8)]

theorem bandwidth_respected_narrow :
    ∃ x, (start 10).run 7 narrowSteps = some x ∧ x.log.kept = [⟨.ping, .control, []⟩] ∧
      bits x.log.kept ≤ 1 * (x.clock - 10) := by
  have hfacts : ((start 10).run 7 narrowSteps).map (fun x => x.log.kept) =
      some [⟨.ping, .control, []⟩] := by
    decide +kernel
  obtain ⟨x, hrun, hkept⟩ := Option.map_eq_some_iff.mp hfacts
  refine ⟨x, hrun, hkept, (bandwidth_respected ?_ hrun).1⟩
  intro now current hmem
  simp only [narrowSteps, List.mem_cons, Prod.mk.injEq, RelayStep.decode.injEq, reduceCtorEq,
    and_false, or_false, false_or, List.not_mem_nil] at hmem
  rcases hmem with ⟨-, rfl⟩ | ⟨-, rfl⟩ | ⟨-, rfl⟩ <;> decide

end Relayed

end Lab
end MeshBus
