import Mathlib.Data.List.Basic
import AppL.Dftl.Basic
import AppL.Lib.Transition

/-!
# The coarse-grained cache

The cache of whole translation pages, and the requests that go through it.  A request that
misses reserves a place by its `nowEvictionHint`, which the read of the page turns into a page
of the cache; the requests that find the read under way wait for it without a place.  The
mapping itself is kept in one array beside the pages.
-/

namespace AppL

open Transition

/-- A `demand_param` with its `assign_param_ex`.  `target` has the lbas still to be done with
their physical addresses, the current one first, and `blocked` tells that the request waits for
the read of another one. -/
structure DemandParam where
  type : ReqType
  target : List (ℕ × ℕ)
  status : MapAssignStatus
  nowEvictionHint : ℕ
  blocked : Bool
  deriving DecidableEq, Repr

/-- How a call of `cache_traverse_state` ends. -/
inductive TraverseEnd where
  | mapReadIssue
  | flyingHit
  | retry
  | mapWrite
  | done
  | missStatusDone
  | notFound
  deriving DecidableEq, Repr

/-- What `coarse_is_needed_eviction` answers. -/
inductive NeededEviction where
  | haveSpace
  | normalEviction
  | emptyEviction
  deriving DecidableEq, Repr

/-- The `coarse_cache_monitor` with the parts of the `demand_map_manager` that it works with.
The head of `lru` is the page used last. -/
structure CoarseMap where
  maxCachingPage : ℕ
  nowCachingPage : ℕ
  lru : List ℕ
  exactMapping : ℕ → ℕ
  gtd : ℕ → GtdEntry
  evictionHint : ℤ
  flyingMapRead : ℕ → Option ℕ
  reqs : ℕ → Option DemandParam
  allNowReq : List ℕ

/-- A request from outside, or what it meets on its way.  `mapPpa` is the page that
`get_map_ppa` gives, if the call writes a translation page. -/
inductive CoarseOp where
  /-- `demand_map_assign` for the pieces of a page that was written -/
  | assign (seq : ℕ) (pairs : List (ℕ × ℕ)) (mapPpa : ℕ)
  /-- `demand_map_assign` for an lba that is removed -/
  | remove (seq lba mapPpa : ℕ)
  /-- `demand_page_read` -/
  | read (seq lba mapPpa : ℕ)
  /-- a request is taken up again: its read or its write of a translation page is done, or it
  is tried another time -/
  | resume (seq mapPpa : ℕ)
  /-- the data collection moves a piece of a cached page -/
  | updateEntryGc (lba ppa : ℕ)
  /-- the collection of the translation pages moves a page -/
  | moveMap (gtdIdx mapPpa : ℕ)

namespace DemandParam

variable (dp : DemandParam)

/-- `dp_status_update`. -/
def dpStatusUpdate (status : MapAssignStatus) : Except Abort DemandParam := do
  require .demandStatus (status = .none ∨ dp.status ≠ status)
  return { dp with status := status }

/-- `dp_initialize`, for the lbas that are left. -/
def dpInitialize (target : List (ℕ × ℕ)) : DemandParam :=
  { dp with target := target, status := .none, nowEvictionHint := 0, blocked := false }

end DemandParam

namespace CoarseMap

variable (s : CoarseMap)

/-- `coarse_init` with `demand_map_create`. -/
def init (maxCachingPage : ℕ) : CoarseMap where
  maxCachingPage := maxCachingPage
  nowCachingPage := 0
  lru := []
  exactMapping _ := uint32Max
  gtd _ := ⟨uint32Max, .empty, [], false⟩
  evictionHint := 0
  flyingMapRead _ := none
  reqs _ := none
  allNowReq := []

/-! ### The cache -/

/-- `coarse_exist`. -/
def exist (lba : ℕ) : Bool := (s.gtd (getGtdIdx lba)).privateData

/-- `coarse_is_needed_eviction`. -/
def isNeededEviction : Except Abort NeededEviction :=
  if (s.maxCachingPage : ℤ) = s.nowCachingPage + s.evictionHint then
    .ok (if s.nowCachingPage ≠ 0 then .normalEviction else .emptyEviction)
  else do
    require .cachingBigger (s.nowCachingPage + s.evictionHint ≤ s.maxCachingPage)
    return .haveSpace

/-- `coarse_is_eviction_hint_full`. -/
def isEvictionHintFull : Bool := decide (s.evictionHint = s.maxCachingPage)

/-- `check_caching_size`. -/
def checkCachingSize (evictionHint : ℤ) : Except Abort Unit := do
  require .evictionHint (0 ≤ evictionHint)
  require .cachingOverflow (s.nowCachingPage + evictionHint ≤ s.maxCachingPage)

/-- An entry of the directory is stored. -/
def setGtd (gtdIdx : ℕ) (etr : GtdEntry) : CoarseMap :=
  { s with gtd := Function.update s.gtd gtdIdx etr }

/-- A page enters the LRU list. -/
def lruPush (gtdIdx : ℕ) : CoarseMap :=
  { s.setGtd gtdIdx { s.gtd gtdIdx with privateData := true } with
    lru := gtdIdx :: s.lru
    nowCachingPage := s.nowCachingPage + 1 }

/-- A page leaves the LRU list. -/
def lruDelete (gtdIdx : ℕ) : CoarseMap :=
  { s.setGtd gtdIdx { s.gtd gtdIdx with privateData := false } with
    lru := s.lru.erase gtdIdx
    nowCachingPage := s.nowCachingPage - 1 }

/-- The status of a page changes. -/
def setStatus (gtdIdx : ℕ) (status : GtdStatus) : CoarseMap :=
  s.setGtd gtdIdx { s.gtd gtdIdx with status := status }

/-- The node of a page that is updated; a page that was never there gets one. -/
def updateNode (gtdIdx : ℕ) : Except Abort CoarseMap :=
  if (s.gtd gtdIdx).status = .empty then .ok (s.lruPush gtdIdx)
  else do
    require .notInserted ((s.gtd gtdIdx).privateData = true)
    return s

/-- `__update_entry`, with the address that the lba had. -/
def updateEntryWith (isgc : Bool) (evictionHint : ℤ) (gtdIdx lba ppa : ℕ) :
    Except Abort (CoarseMap × ℕ) := do
  let s ← s.updateNode gtdIdx
  let oldPpa := s.exactMapping lba
  let s := { s with
    exactMapping := Function.update s.exactMapping lba ppa
    lru := if isgc then s.lru else gtdIdx :: s.lru.erase gtdIdx }
  let s := s.setStatus gtdIdx .dirty
  s.checkCachingSize evictionHint
  return (s, oldPpa)

/-- `coarse_update_entry`. -/
def updateEntry (gtdIdx lba ppa : ℕ) : Except Abort (CoarseMap × ℕ) :=
  s.updateEntryWith false s.evictionHint gtdIdx lba ppa

/-- `coarse_update_entry_gc`. -/
def updateEntryGc (gtdIdx lba ppa : ℕ) : Except Abort (CoarseMap × ℕ) :=
  s.updateEntryWith true 0 gtdIdx lba ppa

/-- `coarse_insert_entry_from_translation`. -/
def insertEntryFromTranslation (gtdIdx nowEvictionHint : ℕ) : Except Abort CoarseMap := do
  require .lruNodeExists ((s.gtd gtdIdx).privateData = false)
  let s := (s.lruPush gtdIdx).setStatus gtdIdx .clean
  let s := { s with evictionHint := s.evictionHint - nowEvictionHint }
  s.checkCachingSize s.evictionHint
  return s

/-- `coarse_get_mapping`. -/
def getMapping (lba : ℕ) : Except Abort ℕ := do
  require .notInserted ((s.gtd (getGtdIdx lba)).privateData = true)
  return s.exactMapping lba

/-- `coarse_get_eviction_GTD_entry`: the scan of the LRU list from the page used longest ago.  A
clean page is gone then, and a dirty one is returned. -/
def getEvictionGtdEntry : List ℕ → Except Abort (CoarseMap × Option ℕ)
  | [] => .ok (s, none)
  | gtdIdx :: rest =>
      match (s.gtd gtdIdx).status with
      | .flying => getEvictionGtdEntry rest
      | .evicting => getEvictionGtdEntry rest
      | .clean => .ok (s.lruDelete gtdIdx, none)
      | .dirty => .ok (s, some gtdIdx)
      | _ => .error .demandStatus

/-! ### The requests -/

/-- A `demand_param` is stored. -/
def setReq (seq : ℕ) (dp : DemandParam) : CoarseMap :=
  { s with reqs := Function.update s.reqs seq (some dp) }

/-- A request ends. -/
def finish (seq : ℕ) : CoarseMap :=
  { s with
    reqs := Function.update s.reqs seq none
    allNowReq := s.allNowReq.erase seq }

/-- `coarse_update_eviction_hint` without `increase`: the place of a request is given back. -/
def returnHint (dp : DemandParam) : Except Abort (CoarseMap × DemandParam) := do
  require .evictionHint (0 ≤ s.evictionHint - dp.nowEvictionHint)
  return ({ s with evictionHint := s.evictionHint - dp.nowEvictionHint },
    { dp with nowEvictionHint := 0 })

/-- A request enters the list of a page. -/
def listInsert (gtdIdx seq : ℕ) : CoarseMap :=
  s.setGtd gtdIdx { s.gtd gtdIdx with pendingReq := (s.gtd gtdIdx).pendingReq ++ [seq] }

/-- A request leaves the list of a page. -/
def listDelete (gtdIdx seq : ℕ) : CoarseMap :=
  s.setGtd gtdIdx { s.gtd gtdIdx with pendingReq := (s.gtd gtdIdx).pendingReq.erase seq }

/-- `map_read_wrapper`. -/
def mapReadWrapper (seq : ℕ) (dp : DemandParam) (lba : ℕ) :
    Except Abort (CoarseMap × DemandParam × TraverseEnd) :=
  if dp.type = .get ∧ (s.gtd (getGtdIdx lba)).physicalAddress = uint32Max then
    .ok (s, dp, .notFound)
  else if (s.gtd (getGtdIdx lba)).status = .flying then
    .ok (s.listInsert (getGtdIdx lba) seq, { dp with blocked := true }, .flyingHit)
  else do
    require .overlapKey (s.flyingMapRead (getGtdIdx lba) = none)
    let s := (s.listInsert (getGtdIdx lba) seq).setStatus (getGtdIdx lba) .flying
    return ({ s with
      flyingMapRead := Function.update s.flyingMapRead (getGtdIdx lba) (some seq) }, dp,
      .mapReadIssue)

/-- The current lba of a request is done. -/
def advance (seq : ℕ) (dp : DemandParam) : CoarseMap :=
  match dp.target.tail with
  | [] => s.finish seq
  | target => s.setReq seq (dp.dpInitialize target)

/-- The turn of `demand_map_coarse_type_pending` for one request of the page. -/
def pendingTurn (gtdIdx : ℕ) (s : CoarseMap) (seq : ℕ) : Except Abort CoarseMap := do
  let dp ← orThrow .outOfBounds (s.reqs seq)
  let (lba, ppa) ← orThrow .outOfBounds dp.target.head?
  let s := s.listDelete gtdIdx seq
  if dp.type = .get then do
    let _ ← s.getMapping lba
    return s.finish seq
  else do
    require .demandStatus (dp.status = .missr)
    let (s, _) ← s.updateEntry gtdIdx lba ppa
    return s.advance seq dp

/-- `demand_map_coarse_type_pending`: the page that request `seq` has read is cached, and all
requests that wait for it are served. -/
def coarseTypePending (seq : ℕ) (dp : DemandParam) (gtdIdx : ℕ) :
    Except Abort (CoarseMap × TraverseEnd) := do
  let s ← s.insertEntryFromTranslation gtdIdx dp.nowEvictionHint
  let s := s.setReq seq { dp with nowEvictionHint := 0 }
  require .evictionHint (0 ≤ s.evictionHint)
  let s ← (s.gtd gtdIdx).pendingReq.foldlM (pendingTurn gtdIdx) s
  let s := { s with flyingMapRead := Function.update s.flyingMapRead gtdIdx none }
  return (s, if (s.reqs seq).isSome then .done else .missStatusDone)

/-- The case `HIT` of `cache_traverse_state`. -/
def hit (dp : DemandParam) (lba ppa : ℕ) : Except Abort (CoarseMap × TraverseEnd) :=
  if dp.type = .get then do
    let _ ← s.getMapping lba
    return (s, .done)
  else do
    let (s, _) ← s.updateEntry (getGtdIdx lba) lba ppa
    return (s, .done)

/-- The end of the case `EVICTIONW`: a request that waits for the read of another one gives its
place back. -/
def afterEviction (seq : ℕ) (dp : DemandParam) :
    TraverseEnd → Except Abort (CoarseMap × TraverseEnd)
  | .flyingHit => do
      let (s, dp) ← s.returnHint dp
      return (s.setReq seq dp, .flyingHit)
  | res => .ok (s.setReq seq dp, res)

/-- The case `EVICTIONW` of `cache_traverse_state`. -/
def evictionw (seq : ℕ) (dp : DemandParam) (lba ppa : ℕ) :
    Except Abort (CoarseMap × TraverseEnd) :=
  if (s.gtd (getGtdIdx lba)).status = .empty ∨ s.exist lba = true then do
    let (s, dp) ← s.returnHint dp
    let dp ← dp.dpStatusUpdate .hit
    (s.setReq seq dp).hit dp lba ppa
  else do
    let dp ← dp.dpStatusUpdate .missr
    let (s, dp, res) ← s.mapReadWrapper seq dp lba
    s.afterEviction seq dp res

/-- `write_updated_map`: the page has a new address in flash. -/
def writeUpdatedMap (gtdIdx mapPpa : ℕ) : CoarseMap :=
  s.setGtd gtdIdx { s.gtd gtdIdx with physicalAddress := mapPpa * l2pgap }

/-- The eviction that a miss needs: a clean page is dropped, a dirty one is written. -/
def evictionPath (mapPpa seq : ℕ) (dp : DemandParam) (lba ppa : ℕ) :
    Except Abort (CoarseMap × TraverseEnd) := do
  let s := { s with evictionHint := s.evictionHint + dp.nowEvictionHint }
  let (s, found) ← s.getEvictionGtdEntry s.lru.reverse
  let dp ← dp.dpStatusUpdate .evictionw
  match found with
  | none => (s.setReq seq dp).evictionw seq dp lba ppa
  | some gtdIdx =>
      return (((s.lruDelete gtdIdx).writeUpdatedMap gtdIdx mapPpa).setReq seq dp, .mapWrite)

/-- A miss that has a place. -/
def coldMiss (seq : ℕ) (dp : DemandParam) (lba ppa : ℕ) : Except Abort (CoarseMap × TraverseEnd) :=
  let s := { s with evictionHint := s.evictionHint + dp.nowEvictionHint }
  if dp.type ≠ .get ∧ (s.gtd (getGtdIdx lba)).physicalAddress = uint32Max then do
    let (s, dp) ← s.returnHint dp
    let dp ← dp.dpStatusUpdate .hit
    (s.setReq seq dp).hit dp lba ppa
  else do
    let dp ← dp.dpStatusUpdate .missr
    let (s, dp, res) ← s.mapReadWrapper seq dp lba
    return (s.setReq seq dp, res)

/-- A miss, once it is known whether there is a place. -/
def missWith (mapPpa seq : ℕ) (dp : DemandParam) (lba ppa : ℕ) :
    NeededEviction → Except Abort (CoarseMap × TraverseEnd)
  | .emptyEviction => .ok (s.setReq seq { dp with nowEvictionHint := 0 }, .retry)
  | .normalEviction =>
      if s.isEvictionHintFull then .ok (s.setReq seq dp, .retry)
      else s.evictionPath mapPpa seq dp lba ppa
  | .haveSpace => s.coldMiss seq dp lba ppa

/-- The case `NONE` of `cache_traverse_state`. -/
def noneCase (mapPpa seq : ℕ) (dp : DemandParam) (lba ppa : ℕ) :
    Except Abort (CoarseMap × TraverseEnd) :=
  if s.exist lba then do
    let dp ← dp.dpStatusUpdate .hit
    (s.setReq seq dp).hit dp lba ppa
  else if dp.type = .get ∧ (s.gtd (getGtdIdx lba)).physicalAddress = uint32Max then
    .ok (s, .notFound)
  else do
    let dp := { dp with nowEvictionHint := 1 }
    require .evictionHint (0 ≤ s.evictionHint)
    if (s.gtd (getGtdIdx lba)).status = .flying then do
      let dp ← dp.dpStatusUpdate .missr
      return ((s.listInsert (getGtdIdx lba) seq).setReq seq
        { dp with nowEvictionHint := 0, blocked := true }, .flyingHit)
    else do
      let needed ← s.isNeededEviction
      s.missWith mapPpa seq dp lba ppa needed

/-- `cache_traverse_state`. -/
def cacheTraverseState (mapPpa seq : ℕ) (dp : DemandParam) (lba ppa : ℕ) :
    Except Abort (CoarseMap × TraverseEnd) :=
  match dp.status with
  | .evictionw => s.evictionw seq dp lba ppa
  | .none => s.noneCase mapPpa seq dp lba ppa
  | .hit => s.hit dp lba ppa
  | .missr => s.coarseTypePending seq dp (getGtdIdx lba)
  | .evictionr => .error .demandStatus

/-- The loop of `demand_map_assign` over the lbas that are left. -/
def assignLoop (mapPpa seq : ℕ) : List (ℕ × ℕ) → CoarseMap → Except Abort CoarseMap
  | [], s => .ok (s.finish seq)
  | (lba, ppa) :: rest, s => do
      let dp ← orThrow .outOfBounds (s.reqs seq)
      let (s, res) ← s.cacheTraverseState mapPpa seq dp lba ppa
      match res with
      | .done => assignLoop mapPpa seq rest (s.setReq seq (dp.dpInitialize rest))
      | .notFound => .error .demandStatus
      | _ => .ok s

/-- The end of `demand_page_read`. -/
def readEnd (seq : ℕ) : TraverseEnd → CoarseMap
  | .done => s.finish seq
  | .notFound => s.finish seq
  | _ => s

/-- `demand_map_assign` and `demand_page_read`. -/
def call (mapPpa seq : ℕ) (dp : DemandParam) : Except Abort CoarseMap :=
  if dp.type = .get then do
    let (lba, ppa) ← orThrow .outOfBounds dp.target.head?
    let (s, res) ← s.cacheTraverseState mapPpa seq dp lba ppa
    return s.readEnd seq res
  else assignLoop mapPpa seq dp.target s

/-- A new request. -/
def issue (mapPpa seq : ℕ) (type : ReqType) (target : List (ℕ × ℕ)) : Except Abort CoarseMap := do
  require .noRequest (seq ∉ s.allNowReq ∧ target ≠ [])
  let dp : DemandParam := ⟨type, target, .none, 0, false⟩
  let s := { s.setReq seq dp with allNowReq := seq :: s.allNowReq }
  s.call mapPpa seq dp

/-- A step. -/
def step : CoarseOp → Except Abort CoarseMap
  | .assign seq pairs mapPpa => s.issue mapPpa seq .set pairs
  | .remove seq lba mapPpa => s.issue mapPpa seq .delete [(lba, uint32Max)]
  | .read seq lba mapPpa => s.issue mapPpa seq .get [(lba, uint32Max)]
  | .resume seq mapPpa => do
      let dp ← orThrow .noRequest (s.reqs seq)
      require .noRequest (dp.blocked = false)
      s.call mapPpa seq dp
  | .updateEntryGc lba ppa =>
      if s.exist lba then do
        let (s, _) ← s.updateEntryGc (getGtdIdx lba) lba ppa
        return s
      else .ok s
  | .moveMap gtdIdx mapPpa =>
      if (s.gtd gtdIdx).physicalAddress = uint32Max then .ok s
      else .ok (s.writeUpdatedMap gtdIdx mapPpa)

end CoarseMap

end AppL
