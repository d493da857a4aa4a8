import Mathlib.Data.List.Destutter
import AppL.Cache.ScSegment

/-!
# The cache layer

User reads look up the shortcut page of an lba and the index of a run, and come back when a
page that was not cached has been read.  A compaction updates the shortcut pages of the lbas
it has moved, and inserts and removes the indexes of runs.
-/

namespace AppL

open Transition

namespace CacheLayer

variable (g : Geometry) (c : CacheLayer)

/-- The ways in which `cache_layer_sc_read` returns: the shortcut table is asked (`hit`), there
is nothing to ask (`notFound`), the cache is too full (`notDone`, where `isdone` is false), a
new page has been made (`initial`), or the page is being read (`waiting`). -/
inductive ScRead where
  | hit
  | notFound
  | notDone
  | initial
  | waiting
  deriving DecidableEq, Repr

/-- Pages are evicted unless there is space. -/
def makeSpace (size : ℕ) : Except Abort CacheLayer :=
  if c.pcs.hasSpace size = true then .ok c else evict g c size

/-- The page of `cache_layer_sc_read` is asked for. -/
def scSend (scIdx : ℕ) (parent : Option ℕ) : Except Abort (ScRead × CacheLayer) := do
  let pcs ← c.pcs.sendGetRequest .shortcut parent scIdx
  return (.waiting, { c with pcs := pcs })

/-- The part of `cache_layer_sc_read` for a page that is neither cached nor underway. -/
def scMiss (scIdx : ℕ) (parent : Option ℕ) (cacheCheck : Bool) :
    Except Abort (ScRead × CacheLayer) :=
  if c.pcs.hasSpace pagesize = false ∧ u32 c.pcs.nowCachedSize < pagesize then
    .ok (.notDone, c)
  else do
    let c ← makeSpace g c pagesize
    let pcs ← c.pcs.occupy .shortcut scIdx pagesize
    let c : CacheLayer := { c with pcs := pcs }
    let pc ← orThrow .outOfBounds (c.pcs.cachedSc[scIdx]?)
    match pc.ppa, cacheCheck with
    | none, true =>
        let pcs ← c.pcs.reclaim scIdx
        return (.notFound, { c with pcs := pcs })
    | none, false =>
        let c ← setInsert g c .shortcut scIdx
        return (.initial, c)
    | some _, _ => scSend c scIdx parent

/-- `cache_layer_sc_read`. -/
def scRead (lba : ℕ) (parent : Option ℕ) (cacheCheck : Bool) :
    Except Abort (ScRead × CacheLayer) :=
  if c.pcs.scPinning = true then
    .ok (.hit, c)
  else do
    let scIdx := lba / ridxinpage
    let (target, pcs) ← c.pcs.isCached .shortcut scIdx
    let c : CacheLayer := { c with pcs := pcs }
    match target with
    | none => scMiss g c scIdx parent cacheCheck
    | some pc =>
        if pc.flag = .flying then
          scSend c scIdx parent
        else if cacheCheck = true then
          return (.hit, c)
        else
          scMiss g c scIdx parent cacheCheck

/-- `cache_layer_sc_retry`. -/
def scRetry (lba : ℕ) : Except Abort CacheLayer := do
  let pc ← orThrow .outOfBounds (c.pcs.cachedSc[lba / ridxinpage]?)
  if pc.flag = .flying then
    setInsert g c .shortcut (lba / ridxinpage)
  else
    return c

/-! ### Updates by a compaction -/

/-- The shortcut pages of a list of lbas; a page is left out when it is the one before. -/
def scTargets (lbaSet : List ℕ) : List ℕ :=
  (lbaSet.map (· / ridxinpage)).destutter (· ≠ ·)

/-- The first part of `cache_layer_sc_update`: the pages that are cached are updated.  The
result has the other pages. -/
def updateCached : CacheLayer → List ℕ → Except Abort (List ℕ × CacheLayer)
  | c, [] => .ok ([], c)
  | c, i :: l => do
      let (target, pcs) ← c.pcs.isCached .shortcut i
      let c : CacheLayer := { c with pcs := pcs }
      match target with
      | some _ =>
          let c ← setUpdate c i
          updateCached c l
      | none =>
          let (rest, c) ← updateCached c l
          return (i :: rest, c)

/-- At most `batch` pages are asked for; a new page is updated at once.  The result has the
pages that are being read and those that are left. -/
def requestBatch : ℕ → CacheLayer → List ℕ → Except Abort (List ℕ × List ℕ × CacheLayer)
  | _, c, [] => .ok ([], [], c)
  | 0, c, i :: l => .ok ([], i :: l, c)
  | batch + 1, c, i :: l => do
      let (res, c) ← scRead g c (i * ridxinpage) none false
      match res with
      | .notDone => return ([], i :: l, c)
      | .waiting =>
          let (crps, rest, c) ← requestBatch batch c l
          return (i :: crps, rest, c)
      | _ =>
          let c ← setUpdate c i
          requestBatch batch c l

/-- A page that has been read is inserted and updated. -/
def insertUpdate (c : CacheLayer) (i : ℕ) : Except Abort CacheLayer := do
  let c ← setInsert g c .shortcut i
  setUpdate c i

/-- The second part of `cache_layer_sc_update`: batch after batch is asked for and inserted as
the reads end, in an order that `orders` gives.  A batch that does not get anywhere is
repeated without end. -/
def updateRest : ℕ → List (List ℕ) → CacheLayer → List ℕ → Except Abort CacheLayer
  | _, _, c, [] => .ok c
  | 0, _, _, _ :: _ => .error .endlessLoop
  | fuel + 1, orders, c, i :: l => do
      let (crps, rest, c) ← requestBatch g (c.pcs.maxCachedSize / pagesize) c (i :: l)
      let order := orders.headD []
      require .wrongPhase (order.Perm crps)
      let c ← order.foldlM (insertUpdate g) c
      updateRest fuel orders.tail c rest

/-- `cache_layer_sc_update`. -/
def scUpdate (lbaSet : List ℕ) (orders : List (List ℕ)) : Except Abort CacheLayer :=
  if c.pcs.scPinning = true then
    .ok c
  else do
    let (rest, c) ← updateCached c (scTargets lbaSet)
    updateRest g (rest.length + 1) orders c rest

/-! ### Indexes -/

/-- `__cache_idx_check_and_occupy`: whether the index is cached; otherwise it is underway
then. -/
def idxCheckAndOccupy (pba size : ℕ) : Except Abort (Bool × CacheLayer) := do
  let (target, pcs) ← c.pcs.isCached .idx pba
  let c : CacheLayer := { c with pcs := pcs }
  match target with
  | some pc => return (pc.flag ≠ .flying, c)
  | none =>
      let c ← makeSpace g c size
      let pcs ← c.pcs.occupy .idx pba size
      return (false, { c with pcs := pcs })

/-- `cache_layer_idx_insert` of an index of `size` bytes. -/
def idxInsert (pba size : ℕ) : Except Abort CacheLayer := do
  let (hit, c) ← idxCheckAndOccupy g c pba size
  if hit = true then
    return c
  else
    setInsert g c .idx pba

/-- `cache_layer_idx_force_evict`. -/
def idxForceEvict (pba : ℕ) : Except Abort CacheLayer := do
  let pcs ← c.pcs.forceEvictIdx pba
  return { c with pcs := pcs }

/-- `cache_layer_idx_read`: whether the index is cached; otherwise the request waits for it. -/
def idxRead (pba size req : ℕ) : Except Abort (Bool × CacheLayer) := do
  let (hit, c) ← idxCheckAndOccupy g c pba size
  if hit = true then
    return (true, c)
  else
    let pcs ← c.pcs.sendGetRequest .idx (some req) pba
    return (false, { c with pcs := pcs })

/-- `cache_layer_idx_retry`. -/
def idxRetry (pba size : ℕ) : Except Abort CacheLayer :=
  match c.pcs.cachedIdx.lookup pba with
  | none => do
      let pcs ← c.pcs.occupy .idx pba size
      setInsert g { c with pcs := pcs } .idx pba
  | some pc => if pc.flag = .flying then setInsert g c .idx pba else .ok c

/-- `cache_layer_get_pending_req`: the requests that wait for a page, which are forgotten. -/
def getPendingReq (type : CacheType) (id : ℕ) : Except Abort (List ℕ × CacheLayer) :=
  match type with
  | .shortcut => do
      let rs ← orThrow .noRequest (c.pcs.pendingScReqMap.lookup id)
      return (rs, { c with pcs := { c.pcs with
        pendingScReqMap := c.pcs.pendingScReqMap.erase id } })
  | .idx => do
      let rs ← orThrow .noRequest (c.pcs.pendingReqMap.lookup id)
      return (rs, { c with pcs := { c.pcs with
        pendingReqMap := c.pcs.pendingReqMap.erase id } })

/-! ### Runs -/

/-- The entry points of the cache layer.  A lookup of a user read has the number of its
request, and the size of an index is the one its mapping function tells. -/
inductive Op where
  | scRead (lba req : ℕ)
  | scRetry (lba : ℕ)
  | idxRead (pba size req : ℕ)
  | idxRetry (pba size : ℕ)
  | getPendingReq (type : CacheType) (id : ℕ)
  | scUpdate (lbaSet : List ℕ) (orders : List (List ℕ))
  | idxInsert (pba size : ℕ)
  | idxForceEvict (pba : ℕ)
  deriving DecidableEq, Repr

/-- One operation. -/
def apply : Op → Except Abort CacheLayer
  | .scRead lba req => do
      let (_, c) ← scRead g c lba (some req) true
      return c
  | .scRetry lba => scRetry g c lba
  | .idxRead pba size req => do
      let (_, c) ← idxRead g c pba size req
      return c
  | .idxRetry pba size => idxRetry g c pba size
  | .getPendingReq type id => do
      let (_, c) ← getPendingReq c type id
      return c
  | .scUpdate lbaSet orders => scUpdate g c lbaSet orders
  | .idxInsert pba size => idxInsert g c pba size
  | .idxForceEvict pba => idxForceEvict c pba

end CacheLayer

end AppL
