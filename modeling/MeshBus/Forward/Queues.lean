import MeshBus.Wire

/-!
# Forward.Queues

The four priority queues of one link and its scheduler (`LinkQueues` of `mb-forward`): strict
priority for P0, deficit round robin (DRR) over P1 to P3, byte credit and a one-packet write
permit.

`none` is a panic (an index out of range) or a `loop` that does not end within its fuel.
-/

namespace MeshBus
namespace Forward

open Wire

def queueLimitPackets : Priority → Nat
  | .p0 => 256
  | .p1 => 512
  | .p2 => 1024
  | .p3 => 4096

def drrQuantumBytes : Fin 3 → Nat
  | 0 => 14 * 1024
  | 1 => 5 * 1024
  | 2 => 1024

structure QueuedPacket where
  incoming : Option LinkId
  packet : ForwardPacket
deriving DecidableEq

structure ConflationKey where
  source : NodeId
  flowId : UInt64
  conflateKey : UInt64
deriving DecidableEq

def ConflationKey.fromPacket (packet : ForwardPacket) : Option ConflationKey :=
  if packet.header.priority = .p1 ∧ packet.header.flags.contains ForwardFlags.conflatable then
    some ⟨packet.header.source, packet.header.flowId, packet.header.conflateKey⟩
  else none

structure LinkQueues where
  queues : Priority → List QueuedPacket
  queuedBytes : Priority → Nat
  availableCreditBytes : Nat
  writable : Bool
  deficitBytes : Fin 3 → Nat
  nextDrr : Nat
  drrNeedsQuantum : Bool

instance : Inhabited LinkQueues where
  default :=
    { queues := fun _ => []
      queuedBytes := fun _ => 0
      availableCreditBytes := 0
      writable := false
      deficitBytes := fun _ => 0
      nextDrr := 0
      drrNeedsQuantum := true }

/-- The queue of a DRR class: index `i` serves `queues[i + 1]`. -/
def drrPriority : Fin 3 → Priority
  | 0 => .p1
  | 1 => .p2
  | 2 => .p3

/-- Replaces the first element satisfying `p`, and returns the element replaced. -/
def replaceFirst {α : Type} (p : α → Bool) (new : α) : List α → Option (List α × α)
  | [] => none
  | x :: xs =>
    if p x then some (new :: xs, x)
    else (replaceFirst p new xs).map fun r => (x :: r.1, r.2)

namespace LinkQueues

def pushBack (state : LinkQueues) (queued : QueuedPacket) : LinkQueues :=
  let priority := queued.packet.header.priority
  { state with
    queuedBytes := Function.update state.queuedBytes priority
      (satAdd (state.queuedBytes priority) queued.packet.encodedLen)
    queues := Function.update state.queues priority (state.queues priority ++ [queued]) }

/-- The conflation branch of `enqueue`: a queued packet with the same key gives its place to the
new one. -/
def conflate (state : LinkQueues) (queued : QueuedPacket) : Option (LinkQueues × QueuedPacket) :=
  let priority := queued.packet.header.priority
  match ConflationKey.fromPacket queued.packet with
  | none => none
  | some key =>
    match replaceFirst (fun old => ConflationKey.fromPacket old.packet = some key) queued
      (state.queues priority) with
    | none => none
    | some (queue, old) =>
      some ({ state with
        queuedBytes := Function.update state.queuedBytes priority
          (satAdd (state.queuedBytes priority - old.packet.encodedLen) queued.packet.encodedLen)
        queues := Function.update state.queues priority queue }, old)

def advanceDrr (state : LinkQueues) : LinkQueues :=
  { state with nextDrr := (state.nextDrr + 1) % 3, drrNeedsQuantum := true }

def headFits (state : LinkQueues) (priority : Priority) : Bool :=
  (state.queues priority).head?.any fun queued =>
    queued.packet.encodedLen ≤ state.availableCreditBytes

/-- `a_packet_fits_credit`. -/
def aPacketFitsCredit (state : LinkQueues) : Bool :=
  state.headFits .p1 || state.headFits .p2 || state.headFits .p3

def clearDeficit (state : LinkQueues) (i : Fin 3) : LinkQueues :=
  { state with deficitBytes := Function.update state.deficitBytes i 0 }

def addQuantum (state : LinkQueues) (i : Fin 3) : LinkQueues :=
  if state.drrNeedsQuantum then
    { state with
      deficitBytes := Function.update state.deficitBytes i
        (satAdd (state.deficitBytes i) (drrQuantumBytes i))
      drrNeedsQuantum := false }
  else state

/-- Takes the head of a queue, charging its length to the credit and clearing the permit. -/
def popFront (state : LinkQueues) (priority : Priority) (queued : QueuedPacket)
    (rest : List QueuedPacket) : LinkQueues :=
  let packetLen := queued.packet.encodedLen
  { state with
    queues := Function.update state.queues priority rest
    queuedBytes := Function.update state.queuedBytes priority
      (state.queuedBytes priority - packetLen)
    availableCreditBytes := state.availableCreditBytes - packetLen
    writable := false }

/-- The `loop` of `try_send_one`. -/
def drrLoop : Nat → LinkQueues → Option (LinkQueues × Option QueuedPacket)
  | 0, _ => none
  | fuel + 1, state =>
    if !state.aPacketFitsCredit then some (state, none)
    else if h : state.nextDrr < 3 then
      let i : Fin 3 := ⟨state.nextDrr, h⟩
      match state.queues (drrPriority i) with
      | [] => drrLoop fuel (state.clearDeficit i).advanceDrr
      | queued :: rest =>
        let state := state.addQuantum i
        let packetLen := queued.packet.encodedLen
        if packetLen > state.deficitBytes i || packetLen > state.availableCreditBytes then
          drrLoop fuel state.advanceDrr
        else
          let state := { state with
            deficitBytes := Function.update state.deficitBytes i
              (state.deficitBytes i - packetLen) }
          let popped := state.popFront (drrPriority i) queued rest
          some (if rest.isEmpty then (popped.clearDeficit i).advanceDrr else popped, some queued)
    else none

/-- Enough rounds for `drrLoop`: a head that fits the credit is reached every third round and
gains at least 1 KiB of deficit each time. -/
def drrFuel (state : LinkQueues) : Nat := 3 * (state.availableCreditBytes / 1024 + 2) + 4

/-- `try_send_one` on the state of one link: the packet to send, if any. -/
def trySendOne (state : LinkQueues) : Option (LinkQueues × Option QueuedPacket) :=
  if !state.writable then some (state, none)
  else
    match state.queues .p0 with
    | queued :: rest =>
      if queued.packet.encodedLen > state.availableCreditBytes then some (state, none)
      else some (state.popFront .p0 queued rest, some queued)
    | [] => drrLoop state.drrFuel state

end LinkQueues

end Forward
end MeshBus
