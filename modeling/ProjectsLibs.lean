import ProjectsLibs.Lib.Run
import ProjectsLibs.Lib.Links
import ProjectsLibs.Lib.Pieces
import ProjectsLibs.Lib.Ring
import ProjectsLibs.Lib.Loop
import ProjectsLibs.Lib.Outcome
import ProjectsLibs.Virtqueue.Basic
import ProjectsLibs.Virtqueue.System
import ProjectsLibs.Virtqueue.Proofs.Invariant
import ProjectsLibs.Virtqueue.Proofs.Frame
import ProjectsLibs.Virtqueue.Proofs.AddAvailable
import ProjectsLibs.Virtqueue.Proofs.Handover
import ProjectsLibs.Virtqueue.Proofs.Reap
import ProjectsLibs.Virtqueue.Proofs.Conservation
import ProjectsLibs.Virtqueue.Proofs.RoundTrip
import ProjectsLibs.Virtqueue.Proofs.Order
import ProjectsLibs.Ivc.Basic
import ProjectsLibs.Ivc.System
import ProjectsLibs.Ivc.Proofs.Direction
import ProjectsLibs.Ivc.Proofs.Handshake
import ProjectsLibs.Ivc.Proofs.Steps
import ProjectsLibs.Ivc.Proofs.Sessions
import ProjectsLibs.Ivc.Proofs.Exchange
import ProjectsLibs.Bpmp.Basic
import ProjectsLibs.Bpmp.System
import ProjectsLibs.Bpmp.Proofs.Matching
import ProjectsLibs.Fdt.Tree
import ProjectsLibs.Fdt.Libfdt
import ProjectsLibs.Fdt.Layout
import ProjectsLibs.Fdtgen.Basic
import ProjectsLibs.Fdtgen.Spec
import ProjectsLibs.Fdtgen.Proofs.Tables
import ProjectsLibs.Fdtgen.Proofs.Growth
import ProjectsLibs.Fdtgen.Proofs.Keep
import ProjectsLibs.Fdtgen.Proofs.Register
import ProjectsLibs.Fdtgen.Proofs.Resolve
import ProjectsLibs.Fdtgen.Proofs.Find
import ProjectsLibs.Fdtgen.Proofs.Trim
import ProjectsLibs.Fdtgen.Proofs.Requests
import ProjectsLibs.Fdtgen.Proofs.Ready
import ProjectsLibs.Fdtgen.Proofs.Generate
import ProjectsLibs.Fdtgen.Proofs.Closure
import ProjectsLibs.Fdtgen.Proofs.Absent
import ProjectsLibs.Fdtgen.Proofs.Subtree
import ProjectsLibs.Fdtgen.Proofs.Repeat
import ProjectsLibs.Fdtgen.Proofs.Safe
import ProjectsLibs.Fdtgen.Proofs.References
import ProjectsLibs.Fdtgen.Proofs.Robust
import ProjectsLibs.Fdtgen.Proofs.Passes
import ProjectsLibs.Lib.Bits
import ProjectsLibs.Usb.Basic
import ProjectsLibs.Usb.Proofs.Address
import ProjectsLibs.Usb.Proofs.Topology
import ProjectsLibs.Sdhc.Basic
import ProjectsLibs.Lib.Chain
import ProjectsLibs.Sdhc.System
import ProjectsLibs.Sdhc.Proofs.Queue
import ProjectsLibs.Sdhc.Proofs.Handler
import ProjectsLibs.Sdhc.Transfer
import ProjectsLibs.Sdhc.Proofs.Wait
import ProjectsLibs.Sdhc.Proofs.Errors
import ProjectsLibs.Sdhc.Proofs.Blocks
import ProjectsLibs.Ivc.Proofs.Wakeup
import ProjectsLibs.Ivc.Hostile
import ProjectsLibs.Ivc.Proofs.Hostile
import ProjectsLibs.Ehci.Basic
import ProjectsLibs.Ehci.Periodic
import ProjectsLibs.Ehci.Proofs.Periodic
import ProjectsLibs.Ehci.Async
import ProjectsLibs.Ehci.Proofs.Ring
import ProjectsLibs.Ehci.Transfers
import ProjectsLibs.Ehci.System
import ProjectsLibs.Ehci.Proofs.Groups
import ProjectsLibs.Ringbuffer.Basic
import ProjectsLibs.Ringbuffer.Proofs.Lossy
import ProjectsLibs.Ringbuffer.Proofs.Race
import ProjectsLibs.Ehci.Doorbell
import ProjectsLibs.Ehci.Proofs.Doorbell
import ProjectsLibs.Virtqueue.Hostile
import ProjectsLibs.Virtqueue.Proofs.Hostile
import ProjectsLibs.Usb.Hub
import ProjectsLibs.Usb.Proofs.Hub
import ProjectsLibs.Ehci.Proofs.RootHub
import ProjectsLibs.Ehci.StatusChange
import ProjectsLibs.Ehci.Proofs.StatusChange
import ProjectsLibs.Ehci.QueueHead
import ProjectsLibs.Usb.Enumerate
import ProjectsLibs.Usb.Proofs.Enumerate
import ProjectsLibs.Usb.Addressing
import ProjectsLibs.Usb.Proofs.Addressing
import ProjectsLibs.Ehci.Proofs.Collect
import ProjectsLibs.Ehci.Proofs.Pass
import ProjectsLibs.Ehci.Proofs.Completion
import ProjectsLibs.Ehci.Contract
import ProjectsLibs.Ehci.Proofs.Bytes
import ProjectsLibs.Ehci.Proofs.Contract
import ProjectsLibs.Vswitch.Basic
import ProjectsLibs.Vswitch.Proofs.Registry
import ProjectsLibs.Ivc.Regions
import ProjectsLibs.Ivc.Proofs.Regions
import ProjectsLibs.Bpmp.Frame
import ProjectsLibs.Bpmp.Proofs.Frame
import ProjectsLibs.Bpmp.Lifecycle
import ProjectsLibs.Bpmp.Proofs.Lifecycle
import ProjectsLibs.Usb.Cdc
import ProjectsLibs.Usb.Proofs.Cdc
import ProjectsLibs.Sdhc.Csd
import ProjectsLibs.Sdhc.Proofs.Csd
import ProjectsLibs.Sdhc.Proofs.Transfer
import ProjectsLibs.Ehci.Buffers
import ProjectsLibs.Ehci.Proofs.Buffers
import ProjectsLibs.Ehci.Proofs.Stages
import ProjectsLibs.Ehci.Stages
import ProjectsLibs.Usb.Config
import ProjectsLibs.Usb.Proofs.Config
import ProjectsLibs.Usb.Proofs.ConfigSafe
import ProjectsLibs.Usb.CdcWrite
import ProjectsLibs.Usb.Proofs.CdcWrite
import ProjectsLibs.Ringbuffer.Block
import ProjectsLibs.Ringbuffer.Proofs.Block
import ProjectsLibs.Virtqueue.Capacity
import ProjectsLibs.Virtqueue.Proofs.Capacity
import ProjectsLibs.Lib.Refine
import ProjectsLibs.Usb.Keyboard
import ProjectsLibs.Usb.Proofs.Keyboard
import ProjectsLibs.Lib.Bytes
import ProjectsLibs.Usb.CdcMgmt
import ProjectsLibs.Usb.Proofs.CdcMgmt
import ProjectsLibs.Usb.Pl2303
import ProjectsLibs.Usb.Proofs.Pl2303
import ProjectsLibs.Lib.Updates
import ProjectsLibs.Tx2.Gpio
import ProjectsLibs.Tx2.Proofs.Gpio
import ProjectsLibs.Tx2.Mux
import ProjectsLibs.Tx2.Proofs.Mux
import ProjectsLibs.Fdtgen.Proofs.Targets
import ProjectsLibs.Fdtgen.Proofs.Calls
import ProjectsLibs.Lib.Settle
import ProjectsLibs.Msgpack.Object
import ProjectsLibs.Msgpack.Pack
import ProjectsLibs.Msgpack.Unpack
import ProjectsLibs.Msgpack.Wire
import ProjectsLibs.Msgpack.Proofs.Unpack
import ProjectsLibs.Msgpack.Proofs.Parse
import ProjectsLibs.Msgpack.Proofs.Sound
import ProjectsLibs.Msgpack.Proofs.Next
import ProjectsLibs.Msgpack.Proofs.Pack
import ProjectsLibs.Msgpack.Proofs.RoundTrip
import ProjectsLibs.Msgpack.Unpacker
import ProjectsLibs.Msgpack.Proofs.Chunks
import ProjectsLibs.Msgpack.Proofs.Bodies
import ProjectsLibs.Msgpack.Proofs.Buffers
import ProjectsLibs.Msgpack.Proofs.Safe
import ProjectsLibs.Msgpack.Proofs.Deliver
import ProjectsLibs.Lib.Utf8
import ProjectsLibs.Jansson.Utf
import ProjectsLibs.Jansson.Value
import ProjectsLibs.Jansson.Load
import ProjectsLibs.Jansson.Text
import ProjectsLibs.Jansson.Proofs.Utf
import ProjectsLibs.Jansson.Proofs.Stream
import ProjectsLibs.Jansson.Proofs.Numbers
import ProjectsLibs.Jansson.Proofs.Strings
import ProjectsLibs.Jansson.Proofs.Lexer
import ProjectsLibs.Jansson.Proofs.Parser
