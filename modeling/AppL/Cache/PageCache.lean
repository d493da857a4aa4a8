import Mathlib.Data.List.AList
import AppL.Settings
import AppL.Lib.Transition

/-!
# The page cache

The pages of the shortcut table and the indexes of the runs share one cache.  A page passes
through the flags `EMPTY`, `OCCUPIED`, `FLYING`, `CLEAN` and `DIRTY`, and an LRU list has the
nodes of the pages that may be evicted.  The cache counts the bytes of the pages in the list,
the shortcut pages and the index pages.
-/

namespace AppL

open Transition

/-- `cache_type`. -/
inductive CacheType where
  | shortcut
  | idx
  deriving DecidableEq, Repr

/-- `cache_flag`. -/
inductive CacheFlag where
  | empty
  | occupied
  | dirty
  | clean
  | flying
  deriving DecidableEq, Repr

/-- A `page_cache`.  `ppa` is the address of its copy in flash, if it has one, and `node`
tells whether it has a node of the LRU list. -/
structure PageCache where
  flag : CacheFlag
  ppa : Option ℕ
  size : ℕ
  node : Bool
  deriving DecidableEq, Repr

/-- An `lru_node`: the page it belongs to, and its size. -/
structure LruNode where
  type : CacheType
  id : ℕ
  size : ℕ
  deriving DecidableEq, Repr

/-- The `pc_set`.  The head of `lru` is the page used last.  The requests that wait for a
page are kept by their numbers, and `reading` has the requests whose read of a cached page is
at the device. -/
structure PcSet where
  scPinning : Bool
  lru : List LruNode
  nowCachedSize : ℤ
  maxCachedSize : ℕ
  cachedScNum : ℤ
  cachedIdxNum : ℤ
  cachedSc : List PageCache
  cachedIdx : AList fun _ : ℕ => PageCache
  pendingReqMap : AList fun _ : ℕ => List ℕ
  pendingScReqMap : AList fun _ : ℕ => List ℕ
  reading : List ℕ

/-- `RIDXINPAGE`: the entries of a page of the shortcut table. -/
def ridxinpage : ℕ := pagesize * 8 / 5

/-- A signed number as an operand of an unsigned operation. -/
def u32 (z : ℤ) : ℕ := (z % 2 ^ 32).toNat

namespace PcSet

/-- `pc_set_init`. -/
def init (maxCachedSize lbaNum : ℕ) (scPinning : Bool) : PcSet where
  scPinning := scPinning
  lru := []
  nowCachedSize := 0
  maxCachedSize := maxCachedSize
  cachedScNum := 0
  cachedIdxNum := 0
  cachedSc := List.replicate (lbaNum / ridxinpage + 1) ⟨.empty, none, pagesize, false⟩
  cachedIdx := ∅
  pendingReqMap := ∅
  pendingScReqMap := ∅
  reading := []

variable (pcs : PcSet)

/-- `cached_idx.size()`. -/
def idxSize : ℕ := pcs.cachedIdx.keys.length

/-- `pc_set_pick`: the page of a type with a number. -/
def pick (type : CacheType) (id : ℕ) : Option PageCache :=
  match type with
  | .shortcut => pcs.cachedSc[id]?
  | .idx => pcs.cachedIdx.lookup id

/-- A page is changed in place. -/
def put (type : CacheType) (id : ℕ) (pc : PageCache) : PcSet :=
  match type with
  | .shortcut => { pcs with cachedSc := pcs.cachedSc.set id pc }
  | .idx => { pcs with cachedIdx := pcs.cachedIdx.insert id pc }

/-- The node of a page in the LRU list. -/
def findNode (type : CacheType) (id : ℕ) : Option LruNode :=
  pcs.lru.find? fun n => n.type = type ∧ n.id = id

/-- `lru_update` of the node of a page: it becomes the head of the list. -/
def lruUpdate (type : CacheType) (id : ℕ) : PcSet :=
  match pcs.findNode type id with
  | some n => { pcs with lru := n :: pcs.lru.erase n }
  | none => pcs

/-- `lru_delete` of the node of a page. -/
def lruDelete (type : CacheType) (id : ℕ) : PcSet :=
  match pcs.findNode type id with
  | some n => { pcs with lru := pcs.lru.erase n }
  | none => pcs

/-- `pc_is_cached`: the page, unless it is empty.  A page that is not underway becomes the one
used last. -/
def isCached (type : CacheType) (id : ℕ) : Except Abort (Option PageCache × PcSet) := do
  require .outOfBounds (type = .shortcut → id < pcs.cachedSc.length)
  match pcs.pick type id with
  | none => return (none, pcs)
  | some pc =>
      if pc.flag = .empty then
        return (none, pcs)
      else if pc.flag ≠ .flying ∧ pc.flag ≠ .occupied ∧ pc.node = true then
        return (some pc, pcs.lruUpdate type id)
      else
        return (some pc, pcs)

/-- `pc_has_space`: an unsigned comparison. -/
def hasSpace (needSize : ℕ) : Bool := u32 (pcs.nowCachedSize + needSize) < pcs.maxCachedSize

/-- `pc_occupy`. -/
def occupy (type : CacheType) (id size : ℕ) : Except Abort PcSet :=
  match type with
  | .shortcut => do
      let pc ← orThrow .outOfBounds (pcs.cachedSc[id]?)
      require .cacheFlag (pc.flag = .empty)
      let pcs := pcs.put .shortcut id { pc with flag := .occupied, size := size, node := false }
      return { pcs with cachedScNum := pcs.cachedScNum + 1 }
  | .idx => do
      require .cachedIdxNum (pcs.cachedIdxNum = pcs.idxSize)
      let pcs := pcs.put .idx id ⟨.occupied, some id, size, false⟩
      return { pcs with cachedIdxNum := pcs.idxSize }

/-- `pc_reclaim` of a shortcut page. -/
def reclaim (id : ℕ) : Except Abort PcSet := do
  let pc ← orThrow .outOfBounds (pcs.cachedSc[id]?)
  let pcs := pcs.put .shortcut id { pc with flag := .empty }
  return { pcs with
    nowCachedSize := pcs.nowCachedSize - pc.size
    cachedScNum := pcs.cachedScNum - 1 }

/-- The part of `pc_set_insert` before the eviction: the page is clean, and its node is the
head of the LRU list. -/
def push (type : CacheType) (id : ℕ) : Except Abort PcSet := do
  let pc ← orThrow .outOfBounds (pcs.pick type id)
  let ppa := if type = .idx then some id else pc.ppa
  let pcs := pcs.put type id { pc with flag := .clean, node := true, ppa := ppa }
  return { pcs with
    nowCachedSize := pcs.nowCachedSize + pc.size
    lru := ⟨type, id, pc.size⟩ :: pcs.lru }

/-- `pc_set_update`. -/
def update (id : ℕ) : Except Abort PcSet := do
  let pc ← orThrow .outOfBounds (pcs.cachedSc[id]?)
  return pcs.put .shortcut id { pc with flag := .dirty }

/-- `pc_force_evict_idx`. -/
def forceEvictIdx (pba : ℕ) : Except Abort PcSet :=
  match pcs.cachedIdx.lookup pba with
  | none => .ok pcs
  | some pc => do
      require .cachedIdxNum (pcs.cachedIdxNum = pcs.idxSize)
      let pcs := if pc.node = true then pcs.lruDelete .idx pba else pcs
      return { pcs with
        nowCachedSize := pcs.nowCachedSize - pc.size
        cachedIdxNum := pcs.cachedIdxNum - 1
        cachedIdx := pcs.cachedIdx.erase pba }

/-- The requests that wait for a page, as `pc_send_get_request` leaves them when request
`req` asks for it: the first request reads the page, and the others wait for it. -/
def await (type : CacheType) (id req : ℕ) : PcSet :=
  match type with
  | .shortcut =>
      match pcs.pendingScReqMap.lookup id with
      | none =>
          { pcs with
            pendingScReqMap := pcs.pendingScReqMap.insert id []
            reading := pcs.reading ++ [req] }
      | some rs => { pcs with pendingScReqMap := pcs.pendingScReqMap.insert id (rs ++ [req]) }
  | .idx =>
      match pcs.pendingReqMap.lookup id with
      | none =>
          { pcs with
            pendingReqMap := pcs.pendingReqMap.insert id []
            reading := pcs.reading ++ [req] }
      | some rs => { pcs with pendingReqMap := pcs.pendingReqMap.insert id (rs ++ [req]) }

/-- `pc_send_get_request`: the page is underway.  A read without a request is one of a
compaction, which waits for it on the spot. -/
def sendGetRequest (type : CacheType) (parents : Option ℕ) (id : ℕ) : Except Abort PcSet := do
  let pc ← orThrow .outOfBounds (pcs.pick type id)
  require .cacheFlag (pc.flag = .occupied ∨ pc.flag = .flying)
  let pcs := pcs.put type id { pc with flag := .flying }
  match parents with
  | none => return pcs
  | some req => return pcs.await type id req

end PcSet

end AppL
