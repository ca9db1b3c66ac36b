import Rv32Soc.Lib.Circuit
import Rv32Soc.Lib.Bytes
import Rv32Soc.Lib.Geometry
import Rv32Soc.Lib.Burst
import Rv32Soc.Cache.DcacheBram
import Rv32Soc.Cache.DcacheCoherence
import Rv32Soc.Cache.DcacheSpeculation
import Rv32Soc.Cache.DcacheRdw
import Rv32Soc.Cache.IcacheBram
import Rv32Soc.Cache.IcacheFetch
import Rv32Soc.Cache.LoadStore
import Rv32Soc.Cache.Tcm
import Rv32Soc.Cache.Dcache
import Rv32Soc.Cache.DataPath
import Rv32Soc.Axi.RwEngine
import Rv32Soc.Axi.WriteChannel
import Rv32Soc.Axi.ReadChannel
import Rv32Soc.Axi.ArbiterRw
import Rv32Soc.Axi.Transport
import Rv32Soc.Core.Decode
import Rv32Soc.Core.Rvc
import Rv32Soc.Core.Pipeline
import Rv32Soc.Core.Stages
import Rv32Soc.Core.Operands
import Rv32Soc.Core.MultiCycle
import Rv32Soc.Core.Fetch
import Rv32Soc.Core.Traps
import Rv32Soc.Core.Prediction
import Rv32Soc.Accel.MmAccel
import Rv32Soc.Accel.Config
import Rv32Soc.Accel.Sequencer
import Rv32Soc.Accel.Array
import Rv32Soc.Accel.Load
import Rv32Soc.Accel.Store
import Rv32Soc.Accel.Prefetch
import Rv32Soc.Core.Registers
import Rv32Soc.Core.Mmio
import Rv32Soc.Core.Reservation
import Rv32Soc.Accel.Queue
import Rv32Soc.Core.Alignment
import Rv32Soc.Core.System
import Rv32Soc.Riscv.Instr
import Rv32Soc.Core.Division
import Rv32Soc.Core.Execute
import Rv32Soc.Riscv.Compressed
import Rv32Soc.Core.Illegal
import Rv32Soc.Cache.Icache
import Rv32Soc.Core.TightlyCoupled
import Rv32Soc.Axi.ReadRetry
import Rv32Soc.Axi.CacheAdapter
import Rv32Soc.Axi.LegacyBus
import Rv32Soc.Axi.LineTrace
import Rv32Soc.Axi.PortTrace
import Rv32Soc.Axi.SplitPath
import Rv32Soc.Axi.Legacy
import Rv32Soc.Axi.MemoryPaths
import Rv32Soc.Axi.WriteBurst
import Rv32Soc.Core.Intc
import Rv32Soc.Driver.IntcEnable
import Rv32Soc.Cache.CachedMem
import Rv32Soc.Driver.Displacement
import Rv32Soc.Driver.Gemm
import Rv32Soc.Driver.GemmCoherence
import Rv32Soc.Driver.GemmStride
import Rv32Soc.Accel.TileRun
import Rv32Soc.Driver.GemmLayout
import Rv32Soc.Core.Serial
import Rv32Soc.Driver.Uart
import Rv32Soc.Accel.Interrupts
import Rv32Soc.Core.Divider
import Rv32Soc.Accel.OperandPort
import Rv32Soc.Accel.Window
import Rv32Soc.Accel.Phases
import Rv32Soc.Accel.BatchRun
import Rv32Soc.Accel.MmSystem
import Rv32Soc.Accel.SoftReset
import Rv32Soc.Riscv.Footprint
import Rv32Soc.Core.Hart
import Rv32Soc.Cache.CodeFetch
import Rv32Soc.Core.Encoding
import Rv32Soc.Core.HartEx
import Rv32Soc.Core.HartMem
import Rv32Soc.Core.HartRun
import Rv32Soc.Core.Machine
import Rv32Soc.Core.Refinement
import Rv32Soc.Lib.LeadsTo
import Rv32Soc.Cache.Progress
import Rv32Soc.Core.Progress
import Rv32Soc.Accel.TileResults
import Rv32Soc.Accel.SharedBatch
import Rv32Soc.Driver.GemmSubmit
import Rv32Soc.Driver.Sharing
import Rv32Soc.Driver.GemmProduct
