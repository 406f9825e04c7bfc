import Or1ksim.Sched.Refinement
import Or1ksim.Decode.Decoder
import Or1ksim.Decode.Generate
import Or1ksim.Cpu.Execute
import Or1ksim.Cpu.Frame
import Or1ksim.Cpu.Step
import Or1ksim.Cpu.Privilege
import Or1ksim.Cpu.FaultingAccess
import Or1ksim.Lib.Aligned
import Or1ksim.Mem.AddressMap
import Or1ksim.Mem.Lookup
import Or1ksim.Lib.Cache
import Or1ksim.Mem.Memory
import Or1ksim.Mem.Space
import Or1ksim.Mem.Dcache
import Or1ksim.Mem.Transparent
import Or1ksim.Mem.Cold
import Or1ksim.Lib.Serial
import Or1ksim.Debug.Jtag
import Or1ksim.Debug.JtagBits
import Or1ksim.Debug.Registers
import Or1ksim.Debug.StoredFields
import Or1ksim.Debug.Response
import Or1ksim.Debug.Transfer
import Or1ksim.Debug.RoundTrip
import Or1ksim.Lib.Access
import Or1ksim.Debug.Positions
import Or1ksim.Debug.BufferSafety
import Or1ksim.Debug.Matchpoints
import Or1ksim.Debug.Packets
import Or1ksim.Debug.RegisterBlock
import Or1ksim.Sched.Due
import Or1ksim.Tick.Jobs
import Or1ksim.Tick.InStep
import Or1ksim.Tick.Pass
import Or1ksim.Lib.Flags
import Or1ksim.Lib.Pending
import Or1ksim.Peripheral.Effects
import Or1ksim.Peripheral.Uart
import Or1ksim.Peripheral.Interrupts
import Or1ksim.Peripheral.Identified
import Or1ksim.Peripheral.Heeding
import Or1ksim.Lib.Linked
import Or1ksim.Peripheral.Mc
import Or1ksim.Peripheral.McAreas
import Or1ksim.Lib.Commands
import Or1ksim.Peripheral.CfiFlash
import Or1ksim.Peripheral.FlashCommands
import Or1ksim.Peripheral.Fields
import Or1ksim.Peripheral.Served
import Or1ksim.Peripheral.Eth
import Or1ksim.Peripheral.EthLine
import Or1ksim.Peripheral.EthRing
import Or1ksim.Peripheral.Dma
import Or1ksim.Peripheral.DmaLive
import Or1ksim.Lib.RingBuffer
import Or1ksim.Peripheral.Receive
import Or1ksim.Peripheral.Received
import Or1ksim.Peripheral.Transmit
import Or1ksim.Peripheral.Transmitted
import Or1ksim.Cpu.Libtoplevel
import Or1ksim.SimConfig.Grammar
import Or1ksim.SimConfig.Meaning
import Or1ksim.Cpu.Arithmetic
import Or1ksim.Cpu.Multiplier
import Or1ksim.Cpu.RangeCause
import Or1ksim.Cpu.Bits
import Or1ksim.Tick.Count
import Or1ksim.Sched.NextInsn
import Or1ksim.Cpu.BusErrors
import Or1ksim.Cpu.Direct
import Or1ksim.Mem.Direct
import Or1ksim.Decode.Opcodes
import Or1ksim.Lib.Ascii
import Or1ksim.Lib.Gather
import Or1ksim.Decode.Fields
import Or1ksim.Decode.Groups
import Or1ksim.Decode.Agreement
import Or1ksim.Mem.Storage
import Or1ksim.Lib.Scan
import Or1ksim.Mem.Replacement
import Or1ksim.Mem.Icache
import Or1ksim.Cpu.Peek
import Or1ksim.Cpu.Tlb
import Or1ksim.Cpu.Watchpoints
import Or1ksim.Cpu.Counters
import Or1ksim.Debug.ReadMem
import Or1ksim.Debug.WriteReg
import Or1ksim.Cpu.Diversion
import Or1ksim.Peripheral.DmaInterrupts
import Or1ksim.Peripheral.DmaTransfer
import Or1ksim.Debug.WriteMem
import Or1ksim.Peripheral.EthBuffer
import Or1ksim.Peripheral.FlashSectors
import Or1ksim.Peripheral.McDecode
import Or1ksim.Peripheral.Gpio
import Or1ksim.Load.Elf
import Or1ksim.Load.Segments
import Or1ksim.Lib.Dataflow
import Or1ksim.Cuc.Insn
import Or1ksim.Cuc.Edge
import Or1ksim.Cuc.Graph
import Or1ksim.Cuc.Tree
import Or1ksim.Cuc.Insert
import Or1ksim.Cuc.Cmov
import Or1ksim.Cuc.Dup
import Or1ksim.Ata.Device
import Or1ksim.Ata.Address
import Or1ksim.Ata.Devices
import Or1ksim.Ata.Transfer
import Or1ksim.Ata.Exact
import Or1ksim.Ata.Bounds
import Or1ksim.Mem.Reset
import Or1ksim.Peripheral.Generic
import Or1ksim.Cpu.ExternalInterrupts
import Or1ksim.Cpu.StoreBuffer
import Or1ksim.Peripheral.Ps2kbd
import Or1ksim.Peripheral.DataPort
import Or1ksim.Profiler.Acquire
import Or1ksim.Profiler.Conserved
import Or1ksim.Profiler.Repeated
import Or1ksim.Lib.Reads
import Or1ksim.SimConfig.Characters
import Or1ksim.SimConfig.Termination
import Or1ksim.Debug.BurstErrors
import Or1ksim.Cuc.Search
import Or1ksim.Cuc.BbSeq
import Or1ksim.Cuc.Renumber
import Or1ksim.Cpu.ZeroRegister
import Or1ksim.Decode.Destinations
import Or1ksim.Debug.ZeroRegister
