import SmpNostd.Lib.Machine
import SmpNostd.Lib.Bits
import SmpNostd.Lib.Accounting
import SmpNostd.Lib.Linearizability
import SmpNostd.Lib.Guarded
import SmpNostd.Lib.LatchedWindow
import SmpNostd.Lib.LiveDevice
import SmpNostd.Lib.Memory
import SmpNostd.Lib.X86
import SmpNostd.Lib.Asm
import SmpNostd.Lib.Interference
import SmpNostd.Lib.Countdown
import SmpNostd.Sync.TicketLock
import SmpNostd.Sync.RwLock
import SmpNostd.Sync.TicketAnswers
import SmpNostd.Sync.TicketTurn
import SmpNostd.Sync.TryRead
import SmpNostd.Sync.SpinLock
import SmpNostd.Sync.Once
import SmpNostd.Sync.GuardedData
import SmpNostd.Sync.Published
import SmpNostd.Scheduler.Task
import SmpNostd.Scheduler.RunQueue
import SmpNostd.Scheduler.AtomicQueue
import SmpNostd.Scheduler.Scheduler
import SmpNostd.Scheduler.Interleaving
import SmpNostd.Scheduler.Affinity
import SmpNostd.Scheduler.Calls
import SmpNostd.Scheduler.Schedule
import SmpNostd.Scheduler.Overtaking
import SmpNostd.Scheduler.Balance
import SmpNostd.Scheduler.Bookkeeping
import SmpNostd.Scheduler.Locking
import SmpNostd.Scheduler.Fairness
import SmpNostd.Scheduler.Answers
import SmpNostd.Scheduler.FineGrained
import SmpNostd.Scheduler.ContextSwitch
import SmpNostd.Boot.Madt
import SmpNostd.Boot.Handoff
import SmpNostd.Boot.RaceFree
import SmpNostd.Boot.Controller
import SmpNostd.Boot.Registration
import SmpNostd.Boot.AllCpus
import SmpNostd.Boot.CurrentCpu
import SmpNostd.Boot.Trampoline
import SmpNostd.Boot.Install
import SmpNostd.Boot.LongMode
import SmpNostd.Boot.Entry
import SmpNostd.Boot.Installed
import SmpNostd.Apic.IoApic
import SmpNostd.Apic.Concurrent
import SmpNostd.Apic.Redirection
import SmpNostd.Apic.Settings
import SmpNostd.Apic.Manager
import SmpNostd.Apic.Arithmetic
import SmpNostd.Apic.Ipi
import SmpNostd.Apic.Timer
import SmpNostd.Driver.Sending
import SmpNostd.Driver.Indices
import SmpNostd.Driver.Spawn
import SmpNostd.Driver.StackEntry
import SmpNostd.Driver.Halt
import SmpNostd.Driver.Wakeup
import SmpNostd.Driver.Startup
import SmpNostd.Apic.LocalVectors
