import ShadOS.Machine.Memory
import ShadOS.Machine.Runs
import ShadOS.Machine.Tiling
import ShadOS.Machine.Fragmentation
import ShadOS.Machine.Requests
import ShadOS.Machine.Allocator
import ShadOS.Machine.Ring
import ShadOS.Machine.Cpu
import ShadOS.Machine.Stack
import ShadOS.Machine.RecordRing
import ShadOS.Machine.Numerals
import ShadOS.Heap.Source
import ShadOS.Heap.Refinement
import ShadOS.Heap.Invariant
import ShadOS.Heap.Interface
import ShadOS.Heap.Runs
import ShadOS.Heap.Canonical
import ShadOS.Heap.FirstFit
import ShadOS.Heap.Stats
import ShadOS.Heap.Accounting
import ShadOS.Heap.Capacity
import ShadOS.Heap.Alignment
import ShadOS.Heap.Rollback
import ShadOS.Heap.Requests
import ShadOS.Tasking.Source
import ShadOS.Tasking.Descriptor
import ShadOS.Tasking.Graph
import ShadOS.Tasking.Linked
import ShadOS.Tasking.Runs
import ShadOS.Tasking.Ledger
import ShadOS.Tasking.States
import ShadOS.Tasking.Integrity
import ShadOS.Tasking.RoundRobin
import ShadOS.Tasking.OnHeap
import ShadOS.Tasking.Creation
import ShadOS.Interrupts.Source
import ShadOS.Interrupts.Acknowledge
import ShadOS.Interrupts.Lines
import ShadOS.Interrupts.OnHeap
import ShadOS.Switch.Source
import ShadOS.Switch.Frames
import ShadOS.Switch.Contexts
import ShadOS.Strings.Source
import ShadOS.Strings.Order
import ShadOS.Strings.Printing
import ShadOS.Strings.Numerals
import ShadOS.Ramfs.Source
import ShadOS.Ramfs.Table
import ShadOS.Ramfs.Contents
import ShadOS.Ramfs.Operations
import ShadOS.Ramfs.Map
import ShadOS.Ramfs.Failures
import ShadOS.Ramfs.Ownership
import ShadOS.Shell.Source
import ShadOS.Shell.Split
import ShadOS.Shell.Editor
import ShadOS.Shell.Commands
import ShadOS.Shell.Listing
import ShadOS.Shell.Files
import ShadOS.Shell.Alloctest
import ShadOS.Paging.Source
import ShadOS.Paging.Tables
import ShadOS.Paging.Region
import ShadOS.Paging.Identity
import ShadOS.Paging.Coverage
import ShadOS.Pci.Source
import ShadOS.Pci.Search
import ShadOS.Mouse.Source
import ShadOS.Mouse.Resync
import ShadOS.Mouse.Motion
import ShadOS.Mouse.Port
import ShadOS.Mouse.Handshake
import ShadOS.Mouse.Status
import ShadOS.Rtl8139.Source
import ShadOS.Rtl8139.Cursor
import ShadOS.Rtl8139.Bounds
import ShadOS.Rtl8139.Card
import ShadOS.Rtl8139.Receive
import ShadOS.Rtl8139.Stranded
import ShadOS.Rtl8139.Transmit
import ShadOS.Rtl8139.Init
import ShadOS.Rtl8139.Route
import ShadOS.Rtl8139.Buffers
import ShadOS.Rtl8139.Chip
import ShadOS.Rtl8139.Ready
import ShadOS.Heap.Leaks
import ShadOS.Usermode.Source
import ShadOS.Usermode.Return
import ShadOS.Stubs.Source
import ShadOS.Stubs.Frame
import ShadOS.Stubs.Transparent
import ShadOS.Preempt.Source
import ShadOS.Preempt.Resume
import ShadOS.Machine.Controller
import ShadOS.Machine.Sharing
import ShadOS.Vectors.Source
import ShadOS.Vectors.Idt
import ShadOS.Vectors.Service
import ShadOS.Vectors.Delivery
import ShadOS.Handlers.Source
import ShadOS.Handlers.Session
import ShadOS.Handlers.Faults
import ShadOS.Together.Source
import ShadOS.Together.Runs
import ShadOS.Tasking.Fairness
import ShadOS.Tasking.Listing
import ShadOS.Serial.Source
import ShadOS.Serial.Line
import ShadOS.Net.Source
import ShadOS.Net.Requests
import ShadOS.Net.Station
import ShadOS.Net.Traffic
