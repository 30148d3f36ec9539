import MeshBus.Lib.ProtoRead
import MeshBus.Transport.Worker

/-!
# Transport.Hello

`attach_stream` and `exchange_hello` of `mb-transport`: what happens on a connected socket before it
is a link. Each side writes a `LinkHello`, then reads until it has one whole frame, which has to be
the hello of a peer it expects and allows. The bytes behind that frame go to the `run_link` task.

The socket, the allowlist and the link counter are outside, so a step names what they gave. The
protobuf library is the parameter `prost`; `linkHelloLayout` is a reader that fits.
-/

namespace MeshBus
namespace Transport

open Wire MeshBus.Runtime MeshBus.Proto

structure LinkHello where
  nodeId : Bytes
  protocolVersion : UInt32
deriving DecidableEq

def LinkHello.encode (m : LinkHello) : Bytes :=
  bytesField 1 m.nodeId ++ varintField 2 m.protocolVersion.toNat

inductive TransportError where
  | io
  | wire (error : FrameError)
  | protobuf
  | unexpectedEndOfStream
  | expectedLinkHello
  | unsupportedProtocolVersion (version : UInt32)
  | invalidNodeIdLength (length : Nat)
  | peerMismatch (expected actual : NodeId)
  | peerNotAllowed (peer : NodeId)
  | linkIdExhausted
  | unknownLink (link : LinkId)
  | linkClosed (link : LinkId)
deriving DecidableEq

/-- `u32::from(FRAME_VERSION)`. -/
def protocolVersion : UInt32 := frameVersion.toUInt32

/-- The hello a node sends. -/
def helloOf (localNode : NodeId) : WireFrame :=
  .control .linkHello (LinkHello.encode ⟨localNode.bytes, protocolVersion⟩)

def nodeIdFromBytes (bytes : Bytes) : Except TransportError NodeId :=
  if h : bytes.length = 32 then .ok ⟨bytes, h⟩ else .error (.invalidNodeIdLength bytes.length)

/-- The checks of `exchange_hello` on the first frame. -/
def identify (prost : Bytes → Option LinkHello) (frame : WireFrame) :
    Except TransportError NodeId :=
  if frame.frameType ≠ .linkHello ∨ frame.channel ≠ .control then .error .expectedLinkHello
  else
    match prost frame.payload with
    | none => .error .protobuf
    | some peerHello =>
      if peerHello.protocolVersion ≠ protocolVersion then
        .error (.unsupportedProtocolVersion peerHello.protocolVersion)
      else nodeIdFromBytes peerHello.nodeId

/-- The checks of `attach_stream` on who answered. -/
def checkPeer (expected : Option NodeId) (allowedPeers : OrdSet NodeId) (peer : NodeId) :
    Except TransportError Unit :=
  match expected with
  | some node =>
    if peer ≠ node then .error (.peerMismatch node peer)
    else if peer ∈ allowedPeers then .ok () else .error (.peerNotAllowed peer)
  | none => if peer ∈ allowedPeers then .ok () else .error (.peerNotAllowed peer)

/-- Where `attach_stream` is on one socket. -/
inductive Attachment where
  /-- It awaits `write_all`; these bytes of the hello are not written yet. -/
  | greeting (rest : Bytes)
  | decoding (buffered : Bytes)
  /-- It awaits `read_buf`. -/
  | reading (buffered : Bytes)
  /-- `exchange_hello` has returned. -/
  | checking (peer : NodeId) (buffered : Bytes)
  /-- It returned an error before there was a link; the socket is closed and what was read is
  dropped. -/
  | failed (error : TransportError) (buffered : Bytes)
  | serving (worker : Worker)

/-- What came from outside. -/
inductive AttachStep where
  | wrote (n : Nat)
  | decode
  | read (bytes : Bytes)
  /-- An error of the socket. -/
  | fail
  /-- The allowlist as it is now, and the next link id if there is one left. -/
  | check (allowedPeers : OrdSet NodeId) (nextLink : Option LinkId)
  /-- `TcpEndpoint::send` or `close` puts a command into the queue of the link. -/
  | submit (command : LinkCommand)
  | work (step : WorkerStep)

namespace Attachment

/-- `exchange_hello` begins by encoding its hello. -/
def start (localNode : NodeId) : Attachment :=
  match FrameEncoder.encode (helloOf localNode) with
  | .ok encoded => .greeting encoded
  | .error e => .failed (.wire e) []

def step (prost : Bytes → Option LinkHello) (expected : Option NodeId) :
    Attachment → AttachStep → Option Attachment
  | .greeting rest, .wrote n =>
    if 0 < n ∧ n < rest.length then some (.greeting (rest.drop n))
    else if n = rest.length then some (.decoding [])
    else none
  | .greeting _, .fail => some (.failed .io [])
  | .decoding buffered, .decode =>
    match FrameDecoder.decode buffered with
    | .error e => some (.failed (.wire e) buffered)
    | .ok none => some (.reading buffered)
    | .ok (some (frame, rest)) =>
      match identify prost frame with
      | .error e => some (.failed e rest)
      | .ok peer => some (.checking peer rest)
  | .reading buffered, .read bytes =>
    if bytes.isEmpty then some (.failed .unexpectedEndOfStream buffered)
    else some (.decoding (buffered ++ bytes))
  | .reading buffered, .fail => some (.failed .io buffered)
  | .checking peer buffered, .check allowedPeers nextLink =>
    match checkPeer expected allowedPeers peer with
    | .error e => some (.failed e buffered)
    | .ok () =>
      match nextLink with
      | none => some (.failed .linkIdExhausted buffered)
      | some link => some (.serving (.attach link peer buffered))
  | .serving w, .submit command =>
    match w.phase with
    -- the task is done and its queue closed
    | .gone | .withdrawn => none
    | _ =>
      if w.commands.length < linkQueueCapacity then
        some (.serving { w with commands := w.commands ++ [command] })
      else none
  | .serving w, .work s => (w.step s).map .serving
  | _, _ => none

theorem step_submit {prost : Bytes → Option LinkHello} {expected : Option NodeId} {w : Worker}
    {command : LinkCommand} {a : Attachment}
    (h : (serving w).step prost expected (.submit command) = some a) :
    a = .serving { w with commands := w.commands ++ [command] } := by
  simp only [step] at h
  split at h
  · cases h
  · cases h
  · split at h <;> cases h
    rfl

/-- The bytes that wait to be written. -/
def unwritten : Attachment → Bytes
  | .greeting rest => rest
  | .serving w => w.unwritten
  | _ => []

/-- The bytes that were read and not decoded. -/
def buffered : Attachment → Bytes
  | .greeting _ => []
  | .decoding buffered | .reading buffered | .checking _ buffered | .failed _ buffered => buffered
  | .serving w => w.buffered

/-- The socket is closed. -/
def closed : Attachment → Bool
  | .failed _ _ => true
  | .serving w =>
    match w.phase with
    | .gone | .withdrawn => true
    | _ => false
  | _ => false

end Attachment

/-! ## The hello on the wire -/

def linkHelloLayout : Layout LinkHello where
  fields m := singularBytes 1 m.nodeId ++ singularVarint 2 m.protocolVersion.toNat
  build fields := some ⟨bytesOf 1 fields, UInt32.ofNat (varintOf 2 fields)⟩
  Ok m := m.nodeId.length < 2 ^ 64
  fits m h f hf := by
    have hversion := m.protocolVersion.toNat_lt
    rcases List.mem_append.mp hf with hf | hf
    · exact fits_singularBytes (by omega) h f hf
    · exact fits_singularVarint (by omega) (by omega) f hf
  build_fields m h := by simp [bytesOf, varintOf]

theorem length_helloOf (node : NodeId) : (helloOf node).payload.length ≤ maxPayloadLen := by
  have hid : (bytesField 1 node.bytes).length ≤ 1 + (0 + 1) + node.bytes.length :=
    length_bytesField_le (by omega) (by rw [node.length_bytes]; omega)
  have hversion : (varintField 2 protocolVersion.toNat).length ≤ 1 + (0 + 1) :=
    length_varintField_le (by omega) (by decide)
  rw [node.length_bytes] at hid
  change (bytesField 1 node.bytes ++ varintField 2 protocolVersion.toNat).length ≤ _
  rw [List.length_append]
  unfold maxPayloadLen
  omega

theorem Attachment.start_eq (node : NodeId) :
    Attachment.start node = .greeting (frameBytes (helloOf node)) := by
  simp only [start, FrameEncoder.encode_of_le (length_helloOf node)]

theorem checkPeer_ok {expected : Option NodeId} {allowedPeers : OrdSet NodeId} {peer : NodeId}
    (h : checkPeer expected allowedPeers peer = .ok ()) :
    peer ∈ allowedPeers ∧ ∀ node, expected = some node → peer = node := by
  unfold checkPeer at h
  split at h
  · rename_i node
    split at h
    · cases h
    · rename_i hpeer
      split at h
      · rename_i hallowed
        refine ⟨hallowed, fun node' hnode => ?_⟩
        cases hnode
        exact not_not.mp hpeer
      · cases h
  · split at h
    · rename_i hallowed
      exact ⟨hallowed, fun node hnode => by cases hnode⟩
    · cases h

end Transport
end MeshBus
