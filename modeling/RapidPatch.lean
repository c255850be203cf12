import RapidPatch.Support.Machine
import RapidPatch.Support.Memory
import RapidPatch.Support.Spans
import RapidPatch.Support.SortedPrefix
import RapidPatch.Support.LinkedList
import RapidPatch.Support.Align
import RapidPatch.Support.BitFilter
import RapidPatch.Support.Stores
import RapidPatch.Support.Bytes
import RapidPatch.Support.Events
import RapidPatch.Support.Blocks
import RapidPatch.Support.Varint
import RapidPatch.Support.RoundRobin
import RapidPatch.Support.Words
import RapidPatch.Support.Truncation
import RapidPatch.Support.Logic
import RapidPatch.Support.Lockstep
import RapidPatch.Vm.Inst
import RapidPatch.Vm.Exec
import RapidPatch.Vm.Budget
import RapidPatch.Vm.Sandbox
import RapidPatch.Vm.Load
import RapidPatch.Vm.Logic
import RapidPatch.Vm.Locality
import RapidPatch.Vm.Checker
import RapidPatch.Vm.Programs
import RapidPatch.Vm.Isa
import RapidPatch.Vm.Transparency
import RapidPatch.Vm.Helpers
import RapidPatch.Vm.Division
import RapidPatch.Vm.ByteOrder
import RapidPatch.Hotpatch.FilterResult
import RapidPatch.Hotpatch.Context
import RapidPatch.Hotpatch.PatchList
import RapidPatch.Hotpatch.FreshPatch
import RapidPatch.Hotpatch.Filters
import RapidPatch.Hotpatch.Dispatch
import RapidPatch.Hotpatch.Writes
import RapidPatch.Hotpatch.Fpb
import RapidPatch.Hotpatch.Monitor
import RapidPatch.Hotpatch.Breakpoints
import RapidPatch.Hotpatch.Capacity
import RapidPatch.Hotpatch.Comparators
import RapidPatch.Hotpatch.Remap
import RapidPatch.Hotpatch.FixedPatches
import RapidPatch.Hotpatch.FixedPoints
import RapidPatch.Hotpatch.Lifetimes
import RapidPatch.Hotpatch.Flash
import RapidPatch.Hotpatch.FlashRuns
import RapidPatch.Hotpatch.FlashBounds
import RapidPatch.Hotpatch.PatchService
import RapidPatch.Hotpatch.UpdateServer
import RapidPatch.Store.Arraymap
import RapidPatch.Store.FiniteMap
import RapidPatch.Store.Bounds
import RapidPatch.Store.Darray
import RapidPatch.Store.Hashmap
import RapidPatch.Store.Buckets
import RapidPatch.Patches.MqttLength
import RapidPatch.Patches.MqttBytecode
import RapidPatch.Patches.DestOptions
import RapidPatch.Patches.DestBytecode
import RapidPatch.Patches.TcpOptions
import RapidPatch.Patches.TcpBytecode
import RapidPatch.Hotpatch.Allocation
import RapidPatch.Thumb.Machine
import RapidPatch.Thumb.Block
import RapidPatch.Thumb.Stack
import RapidPatch.Thumb.WordPair
import RapidPatch.Thumb.Access
import RapidPatch.Jit.Encode
import RapidPatch.Jit.Emit
import RapidPatch.Jit.Build
import RapidPatch.Jit.Passes
import RapidPatch.Jit.Layout
import RapidPatch.Jit.Gen
import RapidPatch.Jit.Sizes
import RapidPatch.Jit.Extent
import RapidPatch.Jit.Decode
import RapidPatch.Hotpatch.Trampolines
import RapidPatch.Hotpatch.BranchEncoders
import RapidPatch.Hotpatch.PassThrough
import RapidPatch.Hotpatch.Callback
import RapidPatch.Hotpatch.RemapTable
import RapidPatch.Hotpatch.Splice
import RapidPatch.Jit.Branches
import RapidPatch.Jit.Regs
import RapidPatch.Jit.Blocks
import RapidPatch.Jit.Shifts
import RapidPatch.Jit.Fragment
import RapidPatch.Jit.FragmentLayout
import RapidPatch.Jit.Simulation
import RapidPatch.Jit.RegFile
import RapidPatch.Jit.Words
import RapidPatch.Jit.Alu
import RapidPatch.Jit.Negate
import RapidPatch.Jit.Alu32
import RapidPatch.Jit.Alu64
import RapidPatch.Jit.LeftShift
import RapidPatch.Jit.ShiftRegs
import RapidPatch.Jit.Divide
import RapidPatch.Jit.Access
import RapidPatch.Jit.LoadForms
import RapidPatch.Jit.LoadBase
import RapidPatch.Jit.Loads
import RapidPatch.Jit.Stores
import RapidPatch.Jit.Admission
import RapidPatch.Jit.Compare
import RapidPatch.Jit.BranchEmitters
import RapidPatch.Jit.Frame
import RapidPatch.Jit.HelperCall
import RapidPatch.Jit.Rightness
import RapidPatch.Jit.Preservation
import RapidPatch.App.Shell
import RapidPatch.App.Commands
import RapidPatch.Hotpatch.Deployment
import RapidPatch.Patches.LoopFree
import RapidPatch.Patches.Served
import RapidPatch.Patches.Shipped
import RapidPatch.Patches.SocketStatus
