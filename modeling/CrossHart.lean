import CrossHart.Block
import CrossHart.Bytes
import CrossHart.Cache
import CrossHart.Cache.JumpCache
import CrossHart.Cache.Table
import CrossHart.Crash
import CrossHart.Hart.Alu
import CrossHart.Hart.Exception
import CrossHart.Hart.Registers
import CrossHart.Hart.Service
import CrossHart.Hart.State
import CrossHart.Hart.Step
import CrossHart.Host.Assembly
import CrossHart.Host.Assignment
import CrossHart.Host.Buffer
import CrossHart.Host.Decode
import CrossHart.Host.Flags
import CrossHart.Host.Instr
import CrossHart.Host.Jump
import CrossHart.Host.Label
import CrossHart.Host.Lower
import CrossHart.Host.Platform
import CrossHart.Host.Processor
import CrossHart.Host.Reg
import CrossHart.Isa.Decode
import CrossHart.Isa.Decode.Compressed
import CrossHart.Isa.Decode.Float
import CrossHart.Isa.Decode.Integer
import CrossHart.Isa.Encode
import CrossHart.Isa.Format
import CrossHart.Isa.Instr
import CrossHart.Isa.Op
import CrossHart.Isa.Text
import CrossHart.Machine.Config
import CrossHart.Machine.Run
import CrossHart.Machine.Snapshot
import CrossHart.Machine.State
import CrossHart.Machine.Stats
import CrossHart.Main
import CrossHart.Memory
import CrossHart.Memory.Access
import CrossHart.Memory.Device
import CrossHart.Memory.Lookaside
import CrossHart.Memory.Policy
import CrossHart.Memory.Space
import CrossHart.Proofs.Bytes
import CrossHart.Proofs.Cache.Arena
import CrossHart.Proofs.Cache.Code
import CrossHart.Proofs.Cache.Coherence
import CrossHart.Proofs.Cache.Execution
import CrossHart.Proofs.Cache.Links
import CrossHart.Proofs.Cache.Operations
import CrossHart.Proofs.Cache.Runs
import CrossHart.Proofs.Cache.Sources
import CrossHart.Proofs.Cache.Views
import CrossHart.Proofs.Formation
import CrossHart.Proofs.Hart.Atomics
import CrossHart.Proofs.Hart.Charged
import CrossHart.Proofs.Hart.Faults
import CrossHart.Proofs.Hart.Integers
import CrossHart.Proofs.Hart.Pairing
import CrossHart.Proofs.Hart.Registers
import CrossHart.Proofs.Hart.Related
import CrossHart.Proofs.Hart.Steps
import CrossHart.Proofs.Host.Arithmetic
import CrossHart.Proofs.Host.Assembly
import CrossHart.Proofs.Host.Assignment
import CrossHart.Proofs.Host.Binding
import CrossHart.Proofs.Host.Blocks
import CrossHart.Proofs.Host.Body
import CrossHart.Proofs.Host.Calls
import CrossHart.Proofs.Host.Departure
import CrossHart.Proofs.Host.Draft
import CrossHart.Proofs.Host.Emission
import CrossHart.Proofs.Host.Emitted
import CrossHart.Proofs.Host.Encoding
import CrossHart.Proofs.Host.Flow
import CrossHart.Proofs.Host.Instructions
import CrossHart.Proofs.Host.Jump
import CrossHart.Proofs.Host.Landing
import CrossHart.Proofs.Host.Processor
import CrossHart.Proofs.Host.Reservation
import CrossHart.Proofs.Host.Sessions
import CrossHart.Proofs.Host.Size
import CrossHart.Proofs.Host.Straight
import CrossHart.Proofs.Host.WayBack
import CrossHart.Proofs.Isa.Compressed
import CrossHart.Proofs.Isa.Decoded
import CrossHart.Proofs.Isa.Encoding
import CrossHart.Proofs.Isa.Format
import CrossHart.Proofs.Isa.Inverse
import CrossHart.Proofs.Machine.Calls
import CrossHart.Proofs.Machine.Confinement
import CrossHart.Proofs.Machine.Course
import CrossHart.Proofs.Machine.Equivalence
import CrossHart.Proofs.Machine.Invalidation
import CrossHart.Proofs.Machine.Lifetime
import CrossHart.Proofs.Machine.Lockstep
import CrossHart.Proofs.Machine.Protection
import CrossHart.Proofs.Machine.Quota
import CrossHart.Proofs.Machine.Reachable
import CrossHart.Proofs.Machine.Recount
import CrossHart.Proofs.Machine.Restoration
import CrossHart.Proofs.Machine.Snapshot
import CrossHart.Proofs.Machine.Splitting
import CrossHart.Proofs.Machine.Translation
import CrossHart.Proofs.Machine.Turns
import CrossHart.Proofs.Memory.Atomicity
import CrossHart.Proofs.Memory.Fetch
import CrossHart.Proofs.Memory.Flat
import CrossHart.Proofs.Memory.Freshness
import CrossHart.Proofs.Memory.Lookaside
import CrossHart.Proofs.Memory.Mapping
import CrossHart.Proofs.Memory.Plain
import CrossHart.Proofs.Memory.Protection
import CrossHart.Proofs.Memory.Sound
import CrossHart.Proofs.Outcome
import CrossHart.Proofs.Stepping
import CrossHart.Proofs.Userland.Contents
import CrossHart.Proofs.Userland.Delivery
import CrossHart.Proofs.Userland.Headers
import CrossHart.Proofs.Userland.Heap
import CrossHart.Proofs.Userland.Kernel
import CrossHart.Proofs.Userland.Loading
import CrossHart.Proofs.Userland.Parts
import CrossHart.Proofs.Userland.Programs
import CrossHart.Proofs.Userland.Segments
import CrossHart.Proofs.Userland.Stack
import CrossHart.Text.Hex
import CrossHart.Text.Number
import CrossHart.Text.Percent
import CrossHart.Text.Utf8
import CrossHart.Userland.Command
import CrossHart.Userland.Directory
import CrossHart.Userland.Elf
import CrossHart.Userland.Kernel
import CrossHart.Userland.Load
import CrossHart.Userland.Segments
import CrossHart.Word
