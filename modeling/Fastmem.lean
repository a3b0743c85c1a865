import Fastmem.AtomicProgram
import Fastmem.SerialExecution
import Fastmem.InterleavedSystem
import Fastmem.ThreadProtocol
import Fastmem.RunExtension
import Fastmem.Core.Share
import Fastmem.Core.Operations
import Fastmem.LinkedCells
import Fastmem.Core.Chains
import Fastmem.Core.SerialReads
import Fastmem.Core.LockOrder
import Fastmem.Core.Placement
import Fastmem.Core.Representation
import Fastmem.Core.SerialInsert
import Fastmem.Core.SerialRuns
import Fastmem.Core.TableRefinement
import Fastmem.AutoIncrement
import Fastmem.Concurrent.ChainSteps
import Fastmem.Concurrent.ChainTriples
import Fastmem.Concurrent.ClearTriples
import Fastmem.Concurrent.ClientProtocol
import Fastmem.Concurrent.Integrity
import Fastmem.Concurrent.StaleUpdates
import Fastmem.Core.References
import Fastmem.Handler.IndexTraversal
import Fastmem.Keys.PackedKeys
import Fastmem.Registry.Counting
import Fastmem.Registry.Opening
import Fastmem.AutoOverflow
import Fastmem.Core.DuplicateReports
import Fastmem.Core.FailedInserts
import Fastmem.Core.KeyEnumeration
import Fastmem.Core.UpdateLocks
import Fastmem.Handler.AutoColumns
import Fastmem.Handler.IndexScans
import Fastmem.Handler.UniqueRows
import Fastmem.Concurrent.QuietSystems
import Fastmem.Concurrent.RowReads
import Fastmem.Concurrent.SlotHistories
import Fastmem.Handler.Cursors
import Fastmem.Handler.LooseScans
import Fastmem.Handler.Positions
import Fastmem.Handler.RowHandlers
import Fastmem.Handler.RowLocks
import Fastmem.Handler.RowOwnership
import Fastmem.Registry.Creating
import Fastmem.Registry.Sizing
import Fastmem.Concurrent.HeldRows
import Fastmem.Handler.OwnUpdates
import Fastmem.Concurrent.SeqlockReads
import Fastmem.Concurrent.OrderedLocks
import Fastmem.Concurrent.PublishedReads
import Fastmem.Concurrent.Truncations
import Fastmem.Handler.AskedRows
import Fastmem.Handler.RowIdentity
import Fastmem.Handler.ComposedUpdates
import Fastmem.Handler.DeadlockFreedom
import Fastmem.Handler.TruncationLocks
import Fastmem.Handler.RowAccounting
import Fastmem.Handler.ScanStatements
import Fastmem.Registry.BlockLedger
import Fastmem.Registry.TableMemory
import Fastmem.Registry.MirroredTables
import Fastmem.Handler.RowIntegrity
