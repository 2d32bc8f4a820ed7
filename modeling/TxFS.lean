import TxFS.Lib.GuardedRun
import TxFS.Lib.LinkedPath
import TxFS.Lib.WhileLoop
import TxFS.Server.Header
import TxFS.Server.LockTable
import TxFS.Server.LockManager
import TxFS.Server.Machine
import TxFS.Table.Contract
import TxFS.Table.Operations
import TxFS.Locks.Representation
import TxFS.Locks.Wakeup
import TxFS.Locks.Steps
import TxFS.Backup.Serializability
import TxFS.Backup.Inactive
import TxFS.Backup.Exactness
import TxFS.Backup.Traversal
import TxFS.Backup.Marks
import TxFS.Backup.PauseArray
import TxFS.Deadlock.Extraction
import TxFS.Deadlock.Victim
import TxFS.Deadlock.Scan
import TxFS.Locks.Progress
import TxFS.Deadlock.Deadlocked
import TxFS.Lib.FileContent
import TxFS.Lib.OpenFile
import TxFS.Lib.FirstOccurrence
import TxFS.Commit.Order
import TxFS.Commit.Durability
import TxFS.Descriptors.Closing
import TxFS.Locks.NoCrash
import TxFS.WaitList.Invariant
import TxFS.WaitList.Overtaking
import TxFS.WaitList.Broadcast
import TxFS.WaitList.Handover
import TxFS.Lib.ByteStream
import TxFS.Wire.Decoding
import TxFS.Wire.Replies
import TxFS.Wire.Framing
import TxFS.Wire.Reads
import TxFS.Trace.Skipping
import TxFS.Trace.Parsing
import TxFS.Trace.OpenFiles
import TxFS.Sessions.Requests
import TxFS.Sessions.Lookups
import TxFS.Sessions.Identity
import TxFS.Descriptors.Access
import TxFS.Descriptors.SerialOrder
import TxFS.Lib.BinaryFile
import TxFS.EventLog.Records
import TxFS.EventLog.Writers
import TxFS.EventLog.Chains
import TxFS.EventLog.Locations
import TxFS.EventLog.Narrowing
import TxFS.EventLog.Stdio
import TxFS.EventLog.Undisturbed
import TxFS.EventLog.Interference
import TxFS.Mutexes.Order
import TxFS.Names.Atomicity
import TxFS.Locks.Rerequest
import TxFS.Locks.GrantedMode
import TxFS.Mutexes.Discipline
import TxFS.Yaffs.CreatLock
import TxFS.Yaffs.Seek
import TxFS.Lib.RefTable
import TxFS.Yaffs.OpenFiles
import TxFS.Yaffs.References
import TxFS.Yaffs.OpenRuns
import TxFS.Yaffs.Deletion
import TxFS.Yaffs.Sharing
import TxFS.Yaffs.Pinned
import TxFS.Yaffs.HandlePool
import TxFS.Lib.CircularList
import TxFS.Lib.Cursor
import TxFS.Yaffs.DirSearch
import TxFS.Yaffs.Listing
import TxFS.Yaffs.Transfers
import TxFS.Names.RenameLocks
import TxFS.Updates.ReadOld
import TxFS.Updates.Overlay
import TxFS.Updates.Pieces
import TxFS.Updates.PieceTexts
import TxFS.Updates.ReadYourWrites
import TxFS.Updates.Deferred
import TxFS.Updates.Replay
