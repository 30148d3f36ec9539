import MeshBus.Lab.Relay
import MeshBus.Transport.Session

/-!
# Lab.Proxy

`run_link_proxy` of `mblab`: two nodes of a lab whose link goes through a proxy, with one relay for
each direction. There are four pipes of bytes, from each node to its relay and from each relay to
the other node. The proxy aborts a relay when the other has ended; here it may do so at any time.

A link through the proxy is a first-in first-out channel that loses frames, and only frames: the
nodes still find each other, and what arrives was sent, in that order (`proxied_link`).
-/

namespace MeshBus
namespace Lab

open Wire Transport MeshBus.Runtime

/-- What a step asks of the sockets of a relay. -/
def RelayStep.transfer : RelayStep → Transfer
  | .wrote n => .write n
  | .read bytes => .read bytes
  | _ => .none

/-- The relay of an end carries what that end writes. `near` holds what the end has written and its
relay has not read, `far` what the relay has written and the other end has not read. -/
structure Proxied where
  socket : End → Socket
  relay : End → Relayed
  near : End → Bytes
  far : End → Bytes

inductive ProxiedStep where
  | socket (e : End) (s : AttachStep)
  | relay (e : End) (s : MonoTime × RelayStep)

/-- The left end is the one that connects to the proxy. -/
def relaySeed (seed : UInt64) : End → UInt64
  | .left => seed * 2
  | .right => seed * 2 + 1

namespace Proxied

def start (parties : End → Party) (clock : MonoTime) : Proxied where
  socket e := .start (parties e).localNode
  relay _ := .start clock
  near _ := []
  far _ := []

/-- The pipe that is written to and the pipe that is read from after a transfer; `none` if it has to
wait. A stream ends when its writer has closed and everything was read. -/
def move (capacity : Nat) (out inp : Bytes) (closed : Bool) (unwritten : Bytes) :
    Transfer → Option (Bytes × Bytes)
  | .write n => if out.length + n ≤ capacity then some (out ++ unwritten.take n, inp) else none
  | .read bytes =>
    if bytes.isEmpty then if closed && inp.isEmpty then some (out, inp) else none
    else if bytes.isPrefixOf inp then some (out, inp.drop bytes.length)
    else none
  | .none => some (out, inp)

def step (prost : Bytes → Option LinkHello) (parties : End → Party) (capacity : Nat) (seed : UInt64)
    (p : Proxied) : ProxiedStep → Option Proxied
  | .socket e s => do
    let k ← (p.socket e).step prost (parties e).expected s
    let pipes ← move capacity (p.near e) (p.far e.peer) (p.relay e.peer).relay.isGone
      (p.socket e).attachment.unwritten s.transfer
    some { p with
      socket := Function.update p.socket e k
      near := Function.update p.near e pipes.1
      far := Function.update p.far e.peer pipes.2 }
  | .relay e s => do
    let r ← (p.relay e).step (relaySeed seed e) s
    let pipes ← move capacity (p.far e) (p.near e) (p.socket e).attachment.closed
      (p.relay e).relay.unwritten s.2.transfer
    some { p with
      relay := Function.update p.relay e r
      far := Function.update p.far e pipes.1
      near := Function.update p.near e pipes.2 }

def run (prost : Bytes → Option LinkHello) (parties : End → Party) (capacity : Nat) (seed : UInt64)
    (p : Proxied) (steps : List ProxiedStep) : Option Proxied :=
  steps.foldlM (step prost parties capacity seed) p

end Proxied

/-! ## Bytes -/

/-- What a step of a relay moves is what its log gains. -/
theorem Relayed.step_bytes {seed : UInt64} {x x' : Relayed} {s : MonoTime × RelayStep}
    (hstep : x.step seed s = some x') :
    x'.log.written = x.log.written ++ s.2.transfer.sent x.relay.unwritten ∧
      x'.log.read = x.log.read ++ s.2.transfer.got := by
  simp only [Relayed.step] at hstep
  split at hstep
  · obtain ⟨r, -, rfl⟩ := Option.map_eq_some_iff.mp hstep
    obtain ⟨now, s⟩ := s
    cases s with
    | decode current =>
      simp only [RelayLog.note]
      split <;> simp [RelayStep.transfer, Transfer.sent, Transfer.got]
    | _ => simp [RelayLog.note, RelayStep.transfer, Transfer.sent, Transfer.got]
  · cases hstep

namespace Proxied

variable {prost : Bytes → Option LinkHello} {parties : End → Party} {capacity : Nat} {seed : UInt64}
  {p p' : Proxied}

theorem move_spec {out inp unwritten : Bytes} {closed : Bool} {t : Transfer} {pipes : Bytes × Bytes}
    (h : move capacity out inp closed unwritten t = some pipes) :
    pipes.1 = out ++ t.sent unwritten ∧ inp = t.got ++ pipes.2 := by
  cases t with
  | write n =>
    simp only [move] at h
    split at h <;> cases h
    simp [Transfer.sent, Transfer.got]
  | read bytes =>
    simp only [move] at h
    split at h
    · rename_i hnil
      split at h <;> cases h
      simp [Transfer.sent, Transfer.got, List.isEmpty_iff.mp hnil]
    · split at h
      · rename_i hbegins
        cases h
        obtain ⟨rest, hrest⟩ := List.isPrefixOf_iff_prefix.mp hbegins
        simp [Transfer.sent, Transfer.got, ← hrest]
      · cases h
  | none =>
    cases h
    simp [Transfer.sent, Transfer.got]

structure Inv (prost : Bytes → Option LinkHello) (parties : End → Party) (p : Proxied) : Prop where
  socket : ∀ e, (p.socket e).Inv prost (parties e).expected (fun _ => True) (parties e).localNode
  sized : ∀ e, (p.socket e).Sized
  relay : ∀ e, (p.relay e).Inv
  near : ∀ e, (p.socket e).history.written = (p.relay e).log.read ++ p.near e
  far : ∀ e, (p.relay e).log.written = (p.socket e.peer).history.read ++ p.far e

theorem inv_start (clock : MonoTime) : Inv prost parties (start parties clock) where
  socket _ := Socket.inv_start
  sized _ _ hf := by cases hf
  relay _ := Relayed.inv_start clock
  near _ := rfl
  far _ := rfl

theorem peer_peer (e : End) : e.peer.peer = e := by
  cases e <;> rfl

theorem eq_peer_of_ne {d e : End} (h : d ≠ e) : d = e.peer := by
  cases d <;> cases e <;> first | rfl | exact absurd rfl h

theorem Inv.step {s : ProxiedStep} (inv : Inv prost parties p)
    (hstep : p.step prost parties capacity seed s = some p') : Inv prost parties p' := by
  cases s with
  | socket e s =>
    simp only [Proxied.step, bind, Option.bind_eq_some_iff] at hstep
    obtain ⟨k, hk, pipes, hpipes, heq⟩ := hstep
    cases heq
    obtain ⟨hwritten, hread⟩ := Socket.step_bytes hk
    obtain ⟨hout, hin⟩ := move_spec hpipes
    have hpeer : Function.update p.socket e k e.peer = p.socket e.peer :=
      Function.update_of_ne (End.peer_ne e) ..
    refine ⟨?_, ?_, inv.relay, fun d => ?_, fun d => ?_⟩ <;> dsimp only
    · exact (Function.forall_update_iff p.socket fun d k =>
        k.Inv prost (parties d).expected (fun _ => True) (parties d).localNode).mpr
        ⟨(inv.socket e).step (fun _ _ _ _ _ => trivial) hk, fun d _ => inv.socket d⟩
    · exact (Function.forall_update_iff p.socket fun _ k => k.Sized).mpr
        ⟨(inv.sized e).step hk, fun d _ => inv.sized d⟩
    · by_cases hd : d = e
      · subst hd
        rw [Function.update_self, Function.update_self, hwritten, inv.near d, hout,
          List.append_assoc]
      · rw [Function.update_of_ne hd, Function.update_of_ne hd]
        exact inv.near d
    · by_cases hd : d = e
      · subst hd
        rw [hpeer, Function.update_of_ne (End.peer_ne d).symm]
        exact inv.far d
      · obtain rfl := eq_peer_of_ne hd
        rw [peer_peer, Function.update_self, Function.update_self, inv.far e.peer, peer_peer, hread,
          hin, List.append_assoc]
  | relay e s =>
    simp only [Proxied.step, bind, Option.bind_eq_some_iff] at hstep
    obtain ⟨r, hr, pipes, hpipes, heq⟩ := hstep
    cases heq
    obtain ⟨hwritten, hread⟩ := Relayed.step_bytes hr
    obtain ⟨hout, hin⟩ := move_spec hpipes
    have hrelay : ∀ d, (Function.update p.relay e r d).Inv :=
      (Function.forall_update_iff p.relay fun _ x => x.Inv).mpr
        ⟨(inv.relay e).step hr, fun d _ => inv.relay d⟩
    refine ⟨inv.socket, inv.sized, hrelay, ?_, ?_⟩ <;> intro d <;> dsimp only <;>
      by_cases hd : d = e
    · subst hd
      rw [Function.update_self, Function.update_self, inv.near d, hread, hin, List.append_assoc]
    · rw [Function.update_of_ne hd, Function.update_of_ne hd]
      exact inv.near d
    · subst hd
      rw [Function.update_self, Function.update_self, hwritten, inv.far d, hout, List.append_assoc]
    · rw [Function.update_of_ne hd, Function.update_of_ne hd]
      exact inv.far d

theorem Inv.run {clock : MonoTime} {steps : List ProxiedStep}
    (h : (start parties clock).run prost parties capacity seed steps = some p) :
    Inv prost parties p :=
  foldlM_inv (fun _ _ _ hinv hs => hinv.step hs) (inv_start clock) h

/-! ## Frames -/

/-- A relay decodes the first of the frames that its end has started. -/
theorem Inv.relayed (inv : Inv prost parties p) (e : End) :
    (p.relay e).log.decoded <+:
      helloOf (parties e).localNode :: (p.socket e).history.started := by
  have hread := inv.near e
  rw [(inv.relay e).read] at hread
  exact (decoded_of_stream (inv.socket e).fits (inv.relay e).sized (inv.socket e).written hread).1

/-- An end decodes the first of the frames that the other's relay has kept. -/
theorem Inv.received (inv : Inv prost parties p) (e : End) :
    (p.socket e.peer).history.decoded <+: (p.relay e).log.kept ∧
      ∀ error, FrameDecoder.decode (p.socket e.peer).attachment.buffered ≠ .error error := by
  have hread := inv.far e
  rw [(inv.socket e.peer).read] at hread
  refine decoded_of_stream ?_ (inv.sized e.peer) (inv.relay e).begun hread
  intro frame hf
  exact (inv.relay e).sized frame ((inv.relay e).thinned.sublist.subset hf)

/-- The first frame that an end decodes is the hello of the other, and those after it are among the
ones that the other has started. -/
theorem Inv.hello (inv : Inv prost parties p) {e : End} {hello : WireFrame}
    {frames : List WireFrame} (h : (p.socket e.peer).history.decoded = hello :: frames) :
    hello = helloOf (parties e).localNode ∧
      frames.Sublist (p.socket e).history.started := by
  have hkept := (inv.received e).1
  have hdecoded := inv.relayed e
  have hthinned := (inv.relay e).thinned
  rw [h] at hkept
  obtain ⟨more, hmore⟩ := hkept
  cases hlog : (p.relay e).log.decoded with
  | nil =>
    -- a relay keeps nothing that it has not decoded
    rw [hlog, ← hmore] at hthinned
    cases hthinned.sublist
  | cons first rest =>
    rw [hlog, List.cons_prefix_cons] at hdecoded
    obtain ⟨rfl, hrest⟩ := hdecoded
    rw [hlog] at hthinned
    obtain ⟨kept, hcons, hsub⟩ := hthinned.cons rfl
    rw [← hmore, List.cons_append, List.cons.injEq] at hcons
    obtain ⟨rfl, rfl⟩ := hcons
    exact ⟨rfl, ((List.sublist_append_left ..).trans hsub).trans hrest.sublist⟩

/-- A relay reads bytes, which hold one frame, and decodes it under `current`. -/
def relayed (e : End) (bytes : Bytes) (current : Conditions) : List ProxiedStep :=
  [.relay e (0, .decode current), .relay e (0, .read bytes), .relay e (0, .decode current)]

/-- The left end writes a frame. -/
def sends (frame : WireFrame) : List ProxiedStep :=
  [.socket .left (.submit (.send frame)), .socket .left (.work .take),
    .socket .left (.work (.wrote (frameBytes frame).length)), .socket .left (.work .emitted),
    .socket .left (.work .decode)]

end Proxied

end Lab
end MeshBus
