import VeratyFS.RoundTrip
import VeratyFS.ExactCounts
import VeratyFS.DeletedFlags
import VeratyFS.SpaceReclaim
import VeratyFS.Interleaving
import VeratyFS.DurableTable
import VeratyFS.DurableInodes
import VeratyFS.PersistedTable
import VeratyFS.CommitThreads
import VeratyFS.LookupCounts
import VeratyFS.InUse
import VeratyFS.Tree
import VeratyFS.LiveInodes
import VeratyFS.CrashOrder
import VeratyFS.Mirror
import VeratyFS.Splices
import VeratyFS.LinkCounts
import VeratyFS.Readdir
import VeratyFS.ExtentSafety
import VeratyFS.UnlinkedInodes
import VeratyFS.DatastoreChoice
import VeratyFS.Compression
import VeratyFS.VerifiedReads
import VeratyFS.PastEnd
import VeratyFS.CommitFaults
import VeratyFS.DamagedStore
import VeratyFS.FreeLists
import VeratyFS.Resizing
import VeratyFS.ResizeOutcomes
import VeratyFS.Lib.Recency
import VeratyFS.Eviction
import VeratyFS.Lib.Fifo
import VeratyFS.BlockingAppend
import VeratyFS.WriteAhead
import VeratyFS.PicklePersistence
import VeratyFS.Lib.Refinement
import VeratyFS.Backlog
import VeratyFS.Serving
import VeratyFS.TableRecords
import VeratyFS.FileStore
import VeratyFS.StoredBlocks
import VeratyFS.Durability
import VeratyFS.SpaceAccounting
import VeratyFS.StoredOnce
import VeratyFS.UserView
