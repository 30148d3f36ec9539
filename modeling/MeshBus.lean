import MeshBus.Lib.OrdMap
import MeshBus.Lib.Emit
import MeshBus.Control.Plane
import MeshBus.Wire
import MeshBus.Wire.Frame
import MeshBus.Wire.Forward
import MeshBus.Forward.Queues
import MeshBus.Control.Steps
import MeshBus.Control.Own
import MeshBus.Runtime.Restart
import MeshBus.Runtime.Codec
import MeshBus.Runtime.FrameSize
import MeshBus.Forward.Forwarder
import MeshBus.Control.Mesh
import MeshBus.Control.Flooding.Agreement
import MeshBus.Lib.Walk
import MeshBus.Control.Dijkstra
import MeshBus.Control.Routing
import MeshBus.Forward.QueueSteps
import MeshBus.Forward.Tokens
import MeshBus.Forward.Steps
import MeshBus.Forward.Handle
import MeshBus.Forward.Total
import MeshBus.Forward.Conservation
import MeshBus.Forward.Conflation
import MeshBus.Forward.Pending
import MeshBus.Forward.Network
import MeshBus.Lib.Window
import MeshBus.PubSub.Dedup
import MeshBus.Runtime.Loop
import MeshBus.Runtime.Advertise
import MeshBus.PubSub.Republish
import MeshBus.Control.Schedule
import MeshBus.Forward.Enqueues
import MeshBus.Runtime.Live
import MeshBus.Forward.Credit
import MeshBus.Runtime.Writes
import MeshBus.Control.Repair
import MeshBus.Lib.Quiesce
import MeshBus.Control.Quiesce
import MeshBus.Lib.Latest
import MeshBus.Control.Database
import MeshBus.Control.Total
import MeshBus.Control.Limits
import MeshBus.Control.Timers
import MeshBus.Control.TieBreak
import MeshBus.Runtime.Sendable
import MeshBus.Lib.ProtoRead
import MeshBus.Runtime.Prost
import MeshBus.Runtime.Validators
import MeshBus.Runtime.Discovery
import MeshBus.Transport.Connection
import MeshBus.Transport.Worker
import MeshBus.Transport.Node
import MeshBus.Control.Lifetime
import MeshBus.Forward.LinkOps
import MeshBus.Forward.LinkMachine
import MeshBus.Forward.LinkState
import MeshBus.Forward.Flow
import MeshBus.Forward.Drr
import MeshBus.Forward.Bypass
import MeshBus.Forward.Order
import MeshBus.Forward.Parking
import MeshBus.Forward.Failure
import MeshBus.Forward.Expiry
import MeshBus.Forward.Checked
import MeshBus.Forward.Multicast
import MeshBus.Control.Refresh
import MeshBus.Control.Hold
import MeshBus.Control.Cases
import MeshBus.PubSub.OwnWindow
import MeshBus.Runtime.Refused
import MeshBus.Lib.Crash
import MeshBus.Lib.FileSystem
import MeshBus.Runtime.SeqFile
import MeshBus.Lib.TimerQueue
import MeshBus.Runtime.Inbox
import MeshBus.Transport.Endpoint
import MeshBus.Transport.Session
import MeshBus.Runtime.Total
import MeshBus.Runtime.Delivery
import MeshBus.Lab.Proxy
