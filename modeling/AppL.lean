import AppL.Lib.Transition
import AppL.Lib.Ledger
import AppL.Lib.PackedArray
import AppL.Lib.RunLength
import AppL.Lib.ArgMax
import AppL.Lib.Hull
import AppL.Lib.WriteBack
import AppL.Lib.WriteOnce
import AppL.Lib.Reservation
import AppL.Lib.Bytes
import AppL.Lib.OrderedMap
import AppL.Lib.MaximalRuns
import AppL.Lib.Directory
import AppL.Lib.Portions
import AppL.Settings
import AppL.BlockManager
import AppL.SegmentPool
import AppL.PageFtl.Basic
import AppL.PageFtl.Invariant
import AppL.PageFtl.Gc
import AppL.PageFtl.Write
import AppL.PageFtl.ReadBuffer
import AppL.PageFtl.Mapping
import AppL.PageFtl.NewGc
import AppL.PageFtl.Reads
import AppL.Cache.PageCache
import AppL.Cache.ScSegment
import AppL.Cache.Copies
import AppL.Cache.Dirty
import AppL.Cache.Layer
import AppL.Cache.Accounting
import AppL.Cache.Balance
import AppL.Cache.Read
import AppL.Cache.Presence
import AppL.Cache.Completion
import AppL.Lsm.Shortcut
import AppL.Lsm.Ownership
import AppL.Lsm.SortedTable
import AppL.Lsm.Run
import AppL.Lsm.SummarySet
import AppL.Lsm.Merge
import AppL.Lsm.Lsmtree
import AppL.Lsm.Write
import AppL.Lsm.Target
import AppL.Lsm.Log
import AppL.Lsm.Query
import AppL.Lsm.RangeSearch
import AppL.Lsm.Merging
import AppL.Lsm.Source
import AppL.Lsm.Disjoint
import AppL.Lsm.Simulation
import AppL.Plr.LineStore
import AppL.Plr.RoundTrip
import AppL.Plr.Insert
import AppL.Plr.Segment
import AppL.Plr.ErrorBound
import AppL.Plr.Feasible
import AppL.Plr.Original
import AppL.LeaFtl.Group
import AppL.LeaFtl.Newest
import AppL.LeaFtl.Mapping
import AppL.LeaFtl.Slices
import AppL.LeaFtl.SlowLookup
import AppL.LeaFtl.Lookup
import AppL.Lsm.ShortcutDir
import AppL.Lsm.DirCursor
import AppL.Lsm.Slots
import AppL.Lsm.LevelOrder
import AppL.Lsm.Victim
import AppL.Lsm.BlockTable
import AppL.Lsm.Custody
import AppL.Lsm.FreeBlocks
import AppL.Lsm.Relocate
import AppL.Lsm.Division
import AppL.Lsm.Memtable
import AppL.Lsm.Flush
import AppL.Lsm.Ranges
import AppL.Lsm.Bounds
import AppL.Lsm.Termination
import AppL.Lsm.Course
import AppL.Lsm.Handover
import AppL.Lsm.Accounts
import AppL.Lsm.Liveness
import AppL.Lsm.Invalidation
import AppL.Lsm.TableRoom
import AppL.Lsm.TableFits
import AppL.Lsm.Rank
import AppL.Lsm.Freshness
import AppL.Lsm.Store
import AppL.Lsm.Outranking
import AppL.Dftl.Basic
import AppL.Dftl.FineCache
import AppL.Dftl.FineCoherence
import AppL.Dftl.FineRuns
import AppL.Dftl.CoarseCache
import AppL.Dftl.Occupancy
import AppL.Dftl.AlignBuffer
import AppL.Dftl.RunLengths
import AppL.Dftl.RunPartition
import AppL.Dftl.SftlCache
import AppL.Dftl.SftlCharge
import AppL.Search
import AppL.Mapping.GuardBf
import AppL.Mapping.PlrMap
import AppL.Mapping.Compression
import AppL.Lsm.Fragment
import AppL.Counters
import AppL.MaxHeap
import AppL.LeaFtl.Levels
import AppL.LeaFtl.Rebuild
import AppL.LeaFtl.LeaCache
import AppL.LeaFtl.Pages
import AppL.LeaFtl.Latest
import AppL.LeaFtl.WriteBuffer
import AppL.LeaFtl.RemainSpace
import AppL.Lsm.Placement
import AppL.Lsm.Pages
import AppL.Lsm.Recording
import AppL.Lsm.Legible
import AppL.Lsm.Validation
import AppL.Lsm.Read
import AppL.Lsm.Capacity
import AppL.Lsm.Insert
