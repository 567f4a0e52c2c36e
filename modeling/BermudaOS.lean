import BermudaOS.Lib.Chains
import BermudaOS.Lib.ByteMemory
import BermudaOS.Lib.Spans
import BermudaOS.Lib.Gaps
import BermudaOS.Lib.Agenda
import BermudaOS.Lib.Program
import BermudaOS.Lib.Clients
import BermudaOS.Lib.Interference
import BermudaOS.Lib.Watch
import BermudaOS.Lib.XorChains
import BermudaOS.Lib.Cells
import BermudaOS.Lib.Stacks
import BermudaOS.Lib.Loops
import BermudaOS.Lib.Numerals
import BermudaOS.Clib.Strings
import BermudaOS.Clib.XorList
import BermudaOS.Clib.XorIterate
import BermudaOS.Clib.LinkedList
import BermudaOS.Clib.Streams
import BermudaOS.Clib.ConvertNum
import BermudaOS.Clib.Printf
import BermudaOS.Arch.Avr
import BermudaOS.Arch.AvrSwitch
import BermudaOS.Sys.Mem
import BermudaOS.Sys.MemBlocks
import BermudaOS.Sys.MemHeaders
import BermudaOS.Sys.MemAlloc
import BermudaOS.Sys.MemFree
import BermudaOS.Sys.MemRuns
import BermudaOS.Sys.MemRealloc
import BermudaOS.Sys.VirtTimer
import BermudaOS.Sys.VirtTimerChain
import BermudaOS.Sys.VirtTimerList
import BermudaOS.Sys.VirtTimerProcess
import BermudaOS.Sys.VirtTimerRuns
import BermudaOS.Sys.VirtTimerDue
import BermudaOS.Sys.VirtTimerPolls
import BermudaOS.Sys.VirtTimerCallbacks
import BermudaOS.Sys.VirtTimerEarly
import BermudaOS.Sys.VirtTimerEnds
import BermudaOS.Sys.Kernel
import BermudaOS.Sys.Sched
import BermudaOS.Sys.SchedLists
import BermudaOS.Sys.SchedCore
import BermudaOS.Sys.SchedSystem
import BermudaOS.Sys.SchedQueues
import BermudaOS.Sys.SchedSound
import BermudaOS.Sys.SchedWake
import BermudaOS.Sys.SchedPasses
import BermudaOS.Sys.SchedMoves
import BermudaOS.Sys.SchedCalls
import BermudaOS.Sys.SchedVerified
import BermudaOS.Sys.SchedBoot
import BermudaOS.Sys.SchedOrder
import BermudaOS.Sys.SchedLocks
import BermudaOS.Sys.SchedEvents
import BermudaOS.Sys.SchedNotify
import BermudaOS.Sys.SchedTimers
import BermudaOS.Sys.SchedOwners
import BermudaOS.Sys.SchedTokens
import BermudaOS.Sys.SchedReader
import BermudaOS.Sys.SchedPrioQueue
import BermudaOS.Sys.SchedExit
import BermudaOS.Sys.Epl
import BermudaOS.Sys.EplAt
import BermudaOS.Sys.EplFix
import BermudaOS.Fs.Stdio
import BermudaOS.Fs.OpenFiles
import BermudaOS.Dev.Drivers
import BermudaOS.Dev.Devreg
import BermudaOS.Dev.I2cMsg
import BermudaOS.Dev.AtmegaI2c
import BermudaOS.Dev.AtmegaBuffers
import BermudaOS.Dev.AtmegaMaster
import BermudaOS.Dev.AtmegaChain
import BermudaOS.Dev.AtmegaRate
import BermudaOS.Dev.I2cCore
import BermudaOS.Dev.I2cCleanup
import BermudaOS.Dev.I2cFirst
import BermudaOS.Dev.I2cInsert
import BermudaOS.Dev.I2cLayout
import BermudaOS.Dev.Adc
import BermudaOS.Dev.Sockets
import BermudaOS.Dev.SpiRam
import BermudaOS.Dev.Usart
import BermudaOS.Net.TokenBucket
import BermudaOS.Net.Vlan
import BermudaOS.Net.Netif
import BermudaOS.Net.Netdevs
import BermudaOS.Dev.I2cClient
import BermudaOS.Lib.CExpr
import BermudaOS.Dev.UsartBaud
import BermudaOS.Sys.VirtTimerMillis
import BermudaOS.Lib.Lookups
import BermudaOS.Sys.SchedNames
import BermudaOS.Dev.FileNames
import BermudaOS.Clib.MemCopy
import BermudaOS.Sys.MemAccounts
import BermudaOS.Dev.AtmegaBus
import BermudaOS.Dev.AtmegaPeers
import BermudaOS.Dev.AtmegaOverrun
import BermudaOS.Sys.MemPools
import BermudaOS.Dev.UsartLine
