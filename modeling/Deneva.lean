import Deneva.Transition
import Deneva.Types
import Deneva.RowLock
import Deneva.LockTable
import Deneva.WaitDie
import Deneva.Serial
import Deneva.StrictTwoPhase
import Deneva.Serializability
import Deneva.Protocol
import Deneva.TwoPhaseCommit
import Deneva.Agreement
import Deneva.Ycsb
import Deneva.Tpcc
import Deneva.Pps
import Deneva.FailedFragment
import Deneva.Version
import Deneva.TimestampRow
import Deneva.RowTs
import Deneva.TimestampSerial
import Deneva.RowMvcc
import Deneva.TxnTable
import Deneva.Occ
import Deneva.OrderedSet
import Deneva.Maat
import Deneva.MaatCluster
import Deneva.MaatRegistered
import Deneva.MaatOrder
import Deneva.MaatInterval
import Deneva.EpochMerge
import Deneva.Sequencer
import Deneva.CalvinOrder
import Deneva.CalvinLocks
import Deneva.CalvinDispatch
import Deneva.FrameworkLocks
import Deneva.FrameworkAttempts
import Deneva.FrameworkRegistry
import Deneva.FrameworkCalvin
import Deneva.UndoLog
import Deneva.FrameworkOptimistic
import Deneva.FrameworkUndo
import Deneva.FrameworkConflicts
import Deneva.YcsbLoader
import Deneva.Attempt
import Deneva.YcsbRequests
import Deneva.PpsData
import Deneva.LockBalance
import Deneva.FrameworkValidated
import Deneva.TpccData
import Deneva.TpccSteps
import Deneva.TpccOrders
import Deneva.TpccAgree
import Deneva.Codec
import Deneva.Batching
import Deneva.Logger
import Deneva.FrameworkChannel
import Deneva.FrameworkReplication
import Deneva.LockInvariant
import Deneva.TpccItems
import Deneva.SequencerAcks
import Deneva.CalvinWrites
import Deneva.LoggedCommit
import Deneva.MessageCodec
import Deneva.CalvinCoverage
import Deneva.MaatValidate
import Deneva.MaatSteps
import Deneva.OccCentral
import Deneva.RowOcc
import Deneva.ClockStamps
import Deneva.ContentSemaphore
import Deneva.RowOccOrder
import Deneva.HashIndex
import Deneva.CustomerIndex
import Deneva.LogReplication
import Deneva.FrameworkRows
import Deneva.FrameworkLockCopy
import Deneva.Ports
