import OsLabs.Lib.Loop
import OsLabs.Lib.RoundRobin
import OsLabs.Lib.Sequential
import OsLabs.Lib.UnitSchedule
import OsLabs.PageReplace.Equiv.BackToBack
import OsLabs.PageReplace.Equiv.Competitive
import OsLabs.PageReplace.Equiv.Args
import OsLabs.PageReplace.Equiv.Identity
import OsLabs.PageReplace.Equiv.Inclusion
import OsLabs.PageReplace.Equiv.LoadOrder
import OsLabs.PageReplace.Equiv.LruStack
import OsLabs.PageReplace.Equiv.Optimal
import OsLabs.PageReplace.Equiv.Adversary
import OsLabs.PageReplace.Equiv.Overflow
import OsLabs.PageReplace.Equiv.Query
import OsLabs.PageReplace.Equiv.Sweep
import OsLabs.Threads.Equiv.Malformed
import OsLabs.Threads.Equiv.Errors
import OsLabs.Threads.Equiv.Ht
import OsLabs.Threads.Equiv.Workers
import OsLabs.Threads.Equiv.RoundTrip
import OsLabs.Threads.Equiv.Statistics
import OsLabs.Process.Equiv.Ends
import OsLabs.Terminal.Equiv.Port
import OsLabs.Terminal.Equiv.Tick
import OsLabs.Terminal.Equiv.Calculadora
import OsLabs.Terminal.Equiv.InterruptHandler
import OsLabs.Terminal.Root
import OsLabs.Terminal.Equiv.Ftoa
import OsLabs.VirtualMemory.Equiv.Room
import OsLabs.VirtualMemory.Equiv.Batch
import OsLabs.VirtualMemory.Equiv.Display
import OsLabs.VirtualMemory.Equiv.Session
import OsLabs.VirtualMemory.Equiv.Args
import OsLabs.Scheduling.Equiv.Capacity
import OsLabs.Scheduling.Equiv.RunLog
import OsLabs.Scheduling.Equiv.EventLog
import OsLabs.Scheduling.Equiv.Schedule
import OsLabs.Scheduling.Equiv.BatchOptimal
import OsLabs.Scheduling.Equiv.Coincide
import OsLabs.Scheduling.Equiv.Conform
import OsLabs.Scheduling.Equiv.Fairness
import OsLabs.Scheduling.Equiv.Fifo
import OsLabs.Scheduling.Equiv.LogChart
import OsLabs.Scheduling.Equiv.ReadyQueue
import OsLabs.Scheduling.Equiv.Times
import OsLabs.Terminal.Equiv.Irq
