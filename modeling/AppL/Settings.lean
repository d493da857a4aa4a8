import Mathlib.Algebra.Order.Ring.Int
import Mathlib.Data.Nat.Basic

/-!
# Settings

The compile-time settings of the simulator: the geometry of the flash device, the
sentinel values, and the ways in which the code stops the program.
-/

namespace AppL

/-- `L2PGAP`: the number of logical pages (pieces) in a physical page. -/
def l2pgap : ℕ := 4

/-- `PAGESIZE`: the bytes of a physical page. -/
def pagesize : ℕ := 16384

/-- `UINT32_MAX`, the value of an address or an lba that is not there. -/
def uint32Max : ℕ := 4294967295

/-- The geometry of the device: `ppb` pages in a block (`_PPB`), `bps` blocks in a segment
(`BPS`) and `nos` segments (`_NOS`). -/
structure Geometry where
  ppb : ℕ
  bps : ℕ
  nos : ℕ
  ppb_pos : 0 < ppb
  bps_pos : 0 < bps

namespace Geometry

/-- The geometry of the settings. -/
def default : Geometry where
  ppb := 128
  bps := 64
  nos := 281
  ppb_pos := by decide
  bps_pos := by decide

variable (g : Geometry)

/-- `_PPS`: the number of pages in a segment. -/
def pps : ℕ := g.ppb * g.bps

theorem pps_pos :
  0 < g.pps
  := Nat.mul_pos g.ppb_pos g.bps_pos

/-- `EXTRACT_BID` of a piece address: the block it lies in. -/
def bid (piecePpa : ℕ) : ℕ := piecePpa / l2pgap / g.ppb

/-- `EXTRACT_SID` of a piece address: the segment it lies in. -/
def sid (piecePpa : ℕ) : ℕ := g.bid piecePpa / g.bps

theorem sid_eq (piecePpa : ℕ) :
  g.sid piecePpa = piecePpa / l2pgap / g.pps
  := Nat.div_div_eq_div_mul _ _ _

end Geometry

/-- The places where the program is stopped: an explicit `abort` or `EPRINT(.., true)`, or
an operation of the language that has no result. -/
inductive Abort where
  /-- a page was assigned out of order in `sbm_get_page_addr` -/
  | pageAddr
  /-- `q_dequeue` of an empty free queue: a null segment is used -/
  | noFreeSegment
  /-- a victim that is not a segment of the heap with the largest count -/
  | noGcTarget
  /-- "the gc target should have valid piece" -/
  | emptyGcTarget
  /-- "cannot write! plz write before erase!" -/
  | writeBeforeErase
  /-- "not populated!" -/
  | notPopulated
  /-- an answer of the device that no request waits for -/
  | noRequest
  /-- no shortcut index, run index or sid is left: `front` of an empty queue -/
  | noFreeRun
  /-- "already assigned info" -/
  | alreadyAssigned
  /-- an access outside of an array, or through a null pointer -/
  | outOfBounds
  /-- "run full!" -/
  | runFull
  /-- "double insert error" -/
  | doubleInsert
  /-- "double delete error" -/
  | doubleDelete
  /-- "it is write_summary_order" -/
  | writeSummaryOrder
  /-- "sorted_table is full!" -/
  | sortedTableFull
  /-- "over range" -/
  | overRange
  /-- "map write error" -/
  | mapWrite
  /-- "invalidate map error!" -/
  | invalidateMap
  /-- "BIT ERROR piece_ppa" -/
  | bitError
  /-- "sorting error!" -/
  | sortingError
  /-- "not matched ste" -/
  | notMatchedSte
  /-- "level is full" -/
  | levelFull
  /-- "it is not write_summary_order" -/
  | notWriteSummaryOrder
  /-- a division by zero -/
  | divByZero
  /-- `entry_num / max_STe_num` for a log without entries -/
  | divByNoSte
  /-- a loop has made more turns than any run of it that ends -/
  | endlessLoop
  /-- an operation that is not the next one of the program -/
  | wrongPhase
  /-- a cached page is not in the state that the page cache expects -/
  | cacheFlag
  /-- "errror": the number of cached index pages is not the size of their map -/
  | cachedIdxNum
  /-- "LBA must be inserted in increasing order" -/
  | lbaOrder
  /-- "not allowed type": a segment that has to be accurate is not -/
  | segmentType
  /-- "the segment must be found!" -/
  | segmentLost
  /-- "must be cached!" -/
  | notCached
  /-- "???": more conflicts than a translation page has entries -/
  | crbSize
  /-- "interval must be available!" -/
  | noInterval
  /-- "sorted buffer size is 0" -/
  | emptyMap
  /-- "interval less than 0, not sorted set!" -/
  | notSortedSet
  /-- "target_fulsh_size must be divided in L2PGAP without the res!" -/
  | notDivided
  /-- "how do i implement?" -/
  | notImplemented
  /-- "dev full": no segment of the wanted type is in the heap -/
  | devFull
  /-- "block over flow error": the reserve has no block left -/
  | blockOverflow
  /-- "reserve full error": the reserve has no page left -/
  | reserveFull
  /-- "EMPTY BLOCK!": a block of a data segment that holds no data -/
  | emptyBlock
  /-- "the mapping should be empty" -/
  | mappingNotEmpty
  /-- "the mapping should be assigned" -/
  | mappingEmpty
  /-- "this block should be normal/mixed block" -/
  | notNormalBlock
  /-- "gc not effective" -/
  | gcNotEffective
  /-- memory is used after it was freed -/
  | useAfterFree
  /-- "already exist key in lru map" -/
  | lruKey
  /-- an address that the block manager has as invalid is in the mapping -/
  | invalidatedPpa
  /-- "fcm.now_evicting_map should be natuer number" -/
  | evictingMap
  /-- "it was updated in updating mapping logic" -/
  | updatedEvicting
  /-- "try to read not populated entry!" -/
  | emptyEntry
  /-- "caching overflow!" -/
  | cachingOverflow
  /-- "now caching page bigger!!!!" -/
  | cachingBigger
  /-- "already lru node exists!" -/
  | lruNodeExists
  /-- "insert translation page before cache update!", or before a mapping is picked -/
  | notInserted
  /-- "eviction_hint error!", or "minus ?????" -/
  | evictionHint
  /-- a status of a request or of a translation page that cannot be -/
  | demandStatus
  /-- "overlap key should not be inserted!" -/
  | overlapKey
  /-- "double invalidation!" -/
  | doubleInvalidation
  /-- "double validation!" -/
  | doubleValidation
  /-- "it can't be!!": a valid piece that is not the one of the mapping -/
  | staleMapping
  /-- "data overflow": a mapping function with more entries than it was made for -/
  | mapOverflow
  /-- differences of a width that the compression does not have -/
  | deltaWidth
  /-- "already full segment" -/
  | fullSegment
  /-- "error on getting new active block, already full!" -/
  | newSegmentFull
  /-- a group is popped from an empty LRU list: a null group is used -/
  | emptyLru
  /-- "what happend?": a victim that is not cached -/
  | victimNotCached
  /-- "must be empty before load!" -/
  | loadNotEmpty
  /-- "not allowed: in the eviction the PLR must be moved to temporal storage" -/
  | plrNotMoved
  /-- the iterator to the first entry of a `std::map` is decremented -/
  | mapBegin
  /-- "what happen???": a translation page that grows by more than two heads -/
  | grownTooMuch
  /-- an array of a translation page that is not cached is used, and it is nowhere else -/
  | nullArray
  deriving DecidableEq, Repr

end AppL
