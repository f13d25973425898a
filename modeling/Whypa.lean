import Whypa.Framework.Counter
import Whypa.Framework.Reach
import Whypa.Virtio.Interrupt
import Whypa.Virtio.AvailRing
import Whypa.Virtio.Completion
import Whypa.Virtio.Kick
import Whypa.Virtio.UsedRing
import Whypa.Virtio.Mmio
import Whypa.Virtio.Negotiation
import Whypa.Virtio.Activation
import Whypa.Virtio.Host
import Whypa.Virtio.DescriptorUtils
import Whypa.Virtio.Workers
import Whypa.Virtio.Chains
import Whypa.Virtio.Served
import Whypa.Virtio.Returned
import Whypa.Virtio.Pending
import Whypa.Virtio.Drain
import Whypa.Virtio.Lifecycle
import Whypa.Framework.Pointwise
import Whypa.Irq.Pins
import Whypa.Irq.Delivery
import Whypa.Memory.Flat
import Whypa.Virtio.Valid
import Whypa.Framework.Framing
import Whypa.Virtio.Receive
import Whypa.Virtio.Transmit
import Whypa.Framework.Mailbox
import Whypa.Virtio.NetDevice
import Whypa.Virtio.NetFrames
import Whypa.Framework.Span
import Whypa.Memory.Bounds
import Whypa.Devices.Bus
import Whypa.Memory.Windows
import Whypa.Acpi.Sdt
import Whypa.Acpi.Madt
import Whypa.Acpi.Tables
import Whypa.Boot.ZeroPage
import Whypa.Framework.Scatter
import Whypa.Virtio.Streams
import Whypa.Virtio.Announce
import Whypa.Virtio.UsedLen
import Whypa.Virtio.ReadBack
import Whypa.Framework.Lengths
import Whypa.Virtio.Consume
import Whypa.Virtio.ByteStream
import Whypa.Virtio.Iteration
import Whypa.Virtio.Buffers
import Whypa.Virtio.AddUsed
import Whypa.Virtio.Status
import Whypa.Virtio.Extents
import Whypa.Irq.Registers
import Whypa.Virtio.Programming
import Whypa.Irq.Faults
import Whypa.Devices.Terminal
import Whypa.Virtio.Queries
import Whypa.Boot.Paging
import Whypa.Boot.Loader
import Whypa.Boot.ElfFile
import Whypa.Boot.EntryPoint
import Whypa.Boot.Hostile
import Whypa.Boot.Placement
import Whypa.Framework.Filling
import Whypa.Virtio.ConsoleInput
import Whypa.Devices.ReferenceTsc
import Whypa.Devices.StripScan
import Whypa.Framework.Related
import Whypa.Virtio.Tame
import Whypa.Virtio.Isolation
import Whypa.Virtio.Config
import Whypa.Virtio.Interference
import Whypa.Virtio.Driver
import Whypa.Machine.Dispatch
import Whypa.Machine.Composition
import Whypa.Machine.Ports
import Whypa.Machine.Vcpu
import Whypa.Machine.Exits
import Whypa.VmMemory.Copy
import Whypa.VmMemory.Transfers
import Whypa.VmMemory.Manager
