import Terdistribusi.Raft.Properties.StateMachine
import Terdistribusi.Raft.Properties.CatchUp
import Terdistribusi.Raft.Properties.Submit
import Terdistribusi.Raft.Properties.Progress
import Terdistribusi.Raft.Properties.Linearizable
import Terdistribusi.Raft.Properties.Durable
import Terdistribusi.Locks.Properties.Release
import Terdistribusi.Locks.Properties.Wakeup
import Terdistribusi.Locks.Properties.Phantom
import Terdistribusi.Locks.Properties.Acquire
import Terdistribusi.Locks.Properties.Replicas
import Terdistribusi.Locks.Properties.Reclaim
import Terdistribusi.Locks.Properties.Victim
import Terdistribusi.Locks.Properties.Service
import Terdistribusi.Locks.Properties.Resolution
import Terdistribusi.Locks.Properties.Fifo
import Terdistribusi.Pbft.Properties.Certificates
import Terdistribusi.Pbft.Properties.Completion
import Terdistribusi.Pbft.Properties.Progress
import Terdistribusi.Pbft.Properties.Validity
import Terdistribusi.Communication.Properties.Detection
import Terdistribusi.Queue.Properties.Recovery
import Terdistribusi.Queue.Properties.NoLoss
import Terdistribusi.Queue.Properties.AckFinal
import Terdistribusi.Queue.Properties.Promotion
import Terdistribusi.Queue.Properties.Accepted
import Terdistribusi.Queue.Properties.Ring
import Terdistribusi.Queue.Properties.Conservation
import Terdistribusi.Queue.Properties.Visibility
import Terdistribusi.Queue.Properties.Intact
import Terdistribusi.Queue.Properties.PersistentLog
import Terdistribusi.Aggregator.Properties.Balance
import Terdistribusi.Aggregator.Properties.BadEntries
import Terdistribusi.Aggregator.Properties.Publish
import Terdistribusi.Aggregator.Properties.Drain
import Terdistribusi.Aggregator.Properties.EndToEnd
import Terdistribusi.Uts.Properties.TimeOrder
import Terdistribusi.Uts.Properties.Lifetimes
import Terdistribusi.Cache.Properties.Writes
import Terdistribusi.Cache.Properties.Eviction
import Terdistribusi.Cache.Properties.Writebacks
import Terdistribusi.Cache.Properties.Reads
import Terdistribusi.Cache.Properties.Sequential
import Terdistribusi.InProcess.Properties.Services
