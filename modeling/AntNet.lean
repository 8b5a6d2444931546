import AntNet.Core.LTS
import AntNet.Core.Prog
import AntNet.Core.LoopErasure
import AntNet.Core.Distribution
import AntNet.Core.Sampling
import AntNet.Core.TripTimes
import AntNet.Core.PriorityOrder
import AntNet.Core.PriorityDeque
import AntNet.Core.Timers
import AntNet.Core.Chain
import AntNet.Core.Reorder
import AntNet.Core.Printf
import AntNet.Core.Responders
import AntNet.Core.Samples
import AntNet.Core.Smoothing
import AntNet.Core.Rounding
import AntNet.Core.Binary64
import AntNet.L1Packet.Header
import AntNet.L1Packet.Layout
import AntNet.L1Packet.Pool
import AntNet.L1Packet.Registration
import AntNet.L1Packet.Classifier
import AntNet.L1Packet.Trace
import AntNet.L2Table.Rtable
import AntNet.L2Table.Selection
import AntNet.L2Table.Weights
import AntNet.L2Table.Sampling
import AntNet.L2Table.Congestion
import AntNet.L2Table.Learning
import AntNet.L2Queue.PriQueue
import AntNet.L2Queue.Service
import AntNet.L3Agent.Antnet
import AntNet.L3Agent.Steps
import AntNet.L3Agent.Memorize
import AntNet.L3Agent.Backward
import AntNet.L3Agent.Ant
import AntNet.L3Agent.Recv
import AntNet.L3Agent.Tables
import AntNet.L3Agent.Outcomes
import AntNet.L3Agent.Traffic
import AntNet.L3Agent.Observations
import AntNet.L3Agent.Reinforcement
import AntNet.L4Network.Net
import AntNet.L4Network.Trans
import AntNet.L4Network.Agents
import AntNet.L4Network.Inv
import AntNet.L4Network.Links
import AntNet.L4Network.AntMemory
import AntNet.L4Network.MemoryFull
import AntNet.L4Network.Custody
import AntNet.L4Network.Values
import AntNet.L4Network.Balanced
import AntNet.L4Network.DeadEnds
import AntNet.L4Network.Queues
import AntNet.L4Network.Retrace
import AntNet.L4Network.TimeToLive
import AntNet.L4Network.Lifetime
import AntNet.L4Network.TripTimes
import AntNet.L4Network.TableEffect
import AntNet.L4Network.Exploration
import AntNet.L4Network.Starvation
import AntNet.L4Network.Plasticity
import AntNet.L4Network.Identity
import AntNet.L4Network.Reports
import AntNet.L4Network.History
import AntNet.L4Network.Schedule
import AntNet.L4Network.Interleavings
import AntNet.L4Network.TraceFile
import AntNet.L4Network.TableFile
import AntNet.Bugs.Restart
import AntNet.Bugs.HeaderSlot
import AntNet.Bugs.PacketKind
import AntNet.Bugs.LoneNode
import AntNet.Bugs.RoutingPriority
import AntNet.Bugs.SquaredSpread
import AntNet.Bugs.WindowLength
