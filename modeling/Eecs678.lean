import Eecs678.Buddy.Canonical
import Eecs678.Scheduler.Runs
import Eecs678.Lib.Best
import Eecs678.Scheduler.Preemptive
import Eecs678.Scheduler.Table
import Eecs678.Simulator.Model
import Eecs678.Simulator.Jobs
import Eecs678.Simulator.Lockstep
import Eecs678.Lib.Machine
import Eecs678.Simulator.Runs
import Eecs678.Quash.DequeModel
import Eecs678.Lib.Ring
import Eecs678.Quash.DequeRefines
import Eecs678.Lib.Descriptors
import Eecs678.Lib.Rotation
import Eecs678.Quash.Commands
import Eecs678.Quash.Execute
import Eecs678.Quash.Jobs
import Eecs678.Quash.Actions
import Eecs678.Quash.Pipeline
import Eecs678.Quash.Background
import Eecs678.Lib.Scanner
import Eecs678.Quash.Lexer
import Eecs678.Quash.Words
import Eecs678.Quash.Parser
import Eecs678.Quash.Lines
import Eecs678.Quash.MainLoop
import Eecs678.Dining.Holding
import Eecs678.Lib.Locks
import Eecs678.Dining.Asymmetric
import Eecs678.Dining.Waiter
import Eecs678.Lib.LinkedList
import Eecs678.Scheduler.Nodes
import Eecs678.Scheduler.NodesRefine
import Eecs678.Scheduler.Stable
import Eecs678.AddrMap.Model
import Eecs678.Lib.FirstUse
import Eecs678.AddrMap.Translation
import Eecs678.Scheduler.History
import Eecs678.Scheduler.NonPreemptive
import Eecs678.Scheduler.RoundRobin
import Eecs678.Buddy.FrontEnd
import Eecs678.Buddy.LiveBlocks
import Eecs678.Lib.Spans
import Eecs678.Quash.PoolModel
import Eecs678.Quash.PoolRanges
import Eecs678.Simulator.Trace
import Eecs678.Lib.Backlog
import Eecs678.Simulator.ShortestFirst
import Eecs678.Lib.ListScheduling
import Eecs678.Simulator.FirstCome
import Eecs678.Buddy.Requests
import Eecs678.Buddy.Undo
import Eecs678.Buddy.Metadata
import Eecs678.Buddy.Sizes
import Eecs678.Simulator.Statistics
import Eecs678.Scheduler.StartTimes
import Eecs678.Simulator.Response
import Eecs678.Quash.Quoting
import Eecs678.Quash.Stages
import Eecs678.Quash.Forks
import Eecs678.Quash.Meaning
import Eecs678.Quash.Arguments
import Eecs678.Quash.CommandString
import Eecs678.Quash.Redirections
import Eecs678.Lib.Counter
import Eecs678.Quash.JobIds
import Eecs678.Quash.KillNumbers
import Eecs678.Quash.PipeFailures
import Eecs678.Scheduler.IntOrder
import Eecs678.Quash.Messages
import Eecs678.AddrMap.FullMemory
import Eecs678.Counting.Model
import Eecs678.Copy.Agreement
import Eecs678.Counting.NoLostIncrement
import Eecs678.AddrMap.Input
import Eecs678.AddrMap.Lines
import Eecs678.Fifo.Delivery
import Eecs678.Quash.PoolAlignment
import Eecs678.Simulator.Loader
import Eecs678.Simulator.Quantum
import Eecs678.Buddy.Commands
import Eecs678.Lib.PrefixCode
import Eecs678.Simulator.Diagram
import Eecs678.Simulator.Buffers
import Eecs678.Buddy.ListHead
import Eecs678.Buddy.Pointers
import Eecs678.Buddy.FreeRings
import Eecs678.Buddy.PointersRefine
import Eecs678.Lib.Automata
import Eecs678.Quash.LexYy
import Eecs678.Lib.TableParser
import Eecs678.Quash.LexRefines
import Eecs678.Quash.ParseRefines
import Eecs678.Simulator.RoundRobin
import Eecs678.Dining.Endings
import Eecs678.Dining.Hang
import Eecs678.Quash.Generated
import Eecs678.Quash.ReadBack
