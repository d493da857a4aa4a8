import AppL.Dftl.RunLengths

/-!
# The spatial cache

The cache of whole translation pages that charges a page by its runs and its unpopulated
offsets.  A page that leaves the cache keeps its arrays beside it, where the collection of the
translation pages updates them, and the charge of the page is computed anew by every update.

An update of an offset in front of every run steps in front of the beginning of a map, which means
nothing in the language: a call is given what the iterator then points to, if it does not stop.
-/

namespace AppL

open Transition

namespace Dftl

/-- `RANGE`: the lbas of the device. -/
def range : ℕ := 32 * 2 ^ 30 / 4096

/-- `GTDNUM`: the translation pages. -/
def gtdNum : ℕ := range / dmfPerPage + if range % dmfPerPage = 0 then 0 else 1

/-- The `nocpu_sftl_cache_monitor` with `real_mapping` and what it uses of the directory.  A
`nocpu_sftl_cache` without arrays is `none`, and `lru` begins with the page used last. -/
structure SftlMonitor where
  maxCachingByte : ℕ
  nowCachingByte : ℕ
  gtdSize : ℕ → ℕ
  lru : List ℕ
  tempEnt : ℕ → Option SftlCache
  realMapping : ℕ → ℕ
  status : ℕ → GtdStatus
  privateData : ℕ → Option (Option SftlCache)

/-- A call of the cache, or a change that the mapping makes to the directory. -/
inductive SftlOp where
  /-- `nocpu_sftl_update_entry` -/
  | updateEntry (lba ppa evictionHint : ℕ)
  /-- `nocpu_sftl_update_entry_gc` -/
  | updateEntryGc (lba ppa : ℕ)
  /-- `nocpu_sftl_insert_entry_from_translation` -/
  | insertEntryFromTranslation (gtdIdx evictionHint orgEvictionHint : ℕ)
  /-- `nocpu_sftl_get_eviction_GTD_entry`, which evicts a clean page itself -/
  | getEvictionGtdEntry
  /-- `nocpu_sftl_update_eviction_target_translation`, the eviction of a dirty page -/
  | updateEvictionTargetTranslation (gtdIdx : ℕ)
  /-- `nocpu_sftl_update_from_translation_gc` -/
  | updateFromTranslationGc (lba ppa : ℕ)
  /-- `nocpu_sftl_force_put_mru` -/
  | forcePutMru (gtdIdx : ℕ)
  /-- the status of a page becomes another one than `EMPTY` -/
  | setStatus (gtdIdx : ℕ) (status : GtdStatus) (h : status ≠ .empty)

namespace SftlMonitor

variable (s : SftlMonitor)

/-- `nocpu_sftl_init` with the directory of `demand_map_create`. -/
def init (totalCachingPhysicalPages : ℕ) : SftlMonitor where
  maxCachingByte :=
    let halfTranslatePageNum := range / dmfPerPage / 2
    (totalCachingPhysicalPages * pagesize % 2 ^ 32 + 2 ^ 32 - halfTranslatePageNum * (4 + 4)
      + 2 ^ 32 - halfTranslatePageNum * 2 / 8) % 2 ^ 32
  nowCachingByte := 0
  gtdSize _ := bitmapSize + pagesize
  lru := []
  tempEnt _ := none
  realMapping _ := uint32Max
  status _ := .empty
  privateData _ := none

/-! ### Reservations -/

/-- The address continues the one of the offset before. -/
def Continues (sc : SftlCache) (offset ppa : ℕ) : Prop :=
  offset ≠ 0 ∧ sc.headArray (offset - 1) ≠ uint32Max ∧ succ32 (sc.headArray (offset - 1)) = ppa
  deriving Decidable

/-- `nocpu_sftl_is_hit_eviction`, for a page whose arrays are there. -/
def isHitEviction (gtdIdx lba ppa totalHitEviction : ℕ) : Bool :=
  match s.privateData gtdIdx with
  | some (some sc) =>
      if Continues sc (transOffset lba) ppa then
        false
      else
        decide (s.maxCachingByte < (s.nowCachingByte + totalHitEviction) % 2 ^ 32 + 4 * 2)
  | _ => false

/-- `nocpu_sftl_update_hit_eviction_hint`: the hint, and the part of it that is the request's. -/
def updateHitEvictionHint (evictionHint nowEvictionHint : ℕ) (increase : Bool) : ℕ × ℕ :=
  if increase then ((evictionHint + 4 * 2) % 2 ^ 32, 4 * 2)
  else ((evictionHint + 2 ^ 32 - nowEvictionHint) % 2 ^ 32, nowEvictionHint)

/-- `sftl_size_checker`. -/
def sftlSizeChecker (evictionHint : ℕ) : Except Abort Unit :=
  require .cachingOverflow
    ((s.nowCachingByte + evictionHint) % 2 ^ 32 ≤ s.maxCachingByte / 100 * 110 % 2 ^ 32)

/-! ### The operations -/

/-- A page enters the LRU list. -/
def lruPush (gtdIdx : ℕ) (sc : Option SftlCache) : SftlMonitor :=
  { s with
    lru := gtdIdx :: s.lru
    privateData := Function.update s.privateData gtdIdx (some sc) }

/-- A page leaves the LRU list, and its arrays go to `temp_ent`. -/
def lruDelete (gtdIdx : ℕ) (sc : Option SftlCache) : SftlMonitor :=
  { s with
    lru := s.lru.erase gtdIdx
    tempEnt := Function.update s.tempEnt gtdIdx sc
    privateData := Function.update s.privateData gtdIdx none
    nowCachingByte := (s.nowCachingByte + 2 ^ 32 - s.gtdSize gtdIdx) % 2 ^ 32 }

/-- The node of a page that is updated.  A page that was never there gets one, and the charge of
another one is taken back until the update is done. -/
def updateNode (gtdIdx : ℕ) : Except Abort SftlMonitor :=
  if s.status gtdIdx = .empty then
    .ok { s.lruPush gtdIdx (some .initial) with
      gtdSize := Function.update s.gtdSize gtdIdx (pagesize + bitmapSize) }
  else do
    require .notInserted ((s.privateData gtdIdx).isSome = true)
    return { s with
      nowCachingByte :=
        if s.nowCachingByte ≤ s.gtdSize gtdIdx then 0 else s.nowCachingByte - s.gtdSize gtdIdx }

/-- The arrays of a page with an update are stored, and its charge is added again. -/
def charge (gtdIdx : ℕ) (sc : SftlCache) : SftlMonitor :=
  { s with
    gtdSize := Function.update s.gtdSize gtdIdx sc.gtdSize
    privateData := Function.update s.privateData gtdIdx (some (some sc))
    nowCachingByte := (s.nowCachingByte + sc.gtdSize) % 2 ^ 32 }

/-- `__update_entry`, with the address that the lba had. -/
def updateEntryWith (outside : Option (ℕ × ℕ)) (isgc : Bool) (evictionHint : Option ℕ)
    (lba ppa : ℕ) : Except Abort (SftlMonitor × ℕ) := do
  let gtdIdx := getGtdIdx lba
  require .outOfBounds (gtdIdx < gtdNum)
  let s ← s.updateNode gtdIdx
  let sc ← orThrow .nullArray (s.privateData gtdIdx).join
  let oldPpa := sc.headArray (transOffset lba)
  let sc ← sc.updateWith outside (transOffset lba) ppa
  require .grownTooMuch ((sc.gtdSize : ℤ) - s.gtdSize gtdIdx ≤ 4 * 2)
  let s := s.charge gtdIdx sc
  s.sftlSizeChecker (evictionHint.getD 0)
  return ({ s with
    realMapping := Function.update s.realMapping lba ppa
    lru := if isgc then s.lru else gtdIdx :: s.lru.erase gtdIdx
    status := Function.update s.status gtdIdx .dirty }, oldPpa)

/-- `nocpu_sftl_update_entry`. -/
def updateEntry (outside : Option (ℕ × ℕ)) (lba ppa evictionHint : ℕ) :
    Except Abort (SftlMonitor × ℕ) :=
  s.updateEntryWith outside false (some evictionHint) lba ppa

/-- `nocpu_sftl_update_entry_gc`. -/
def updateEntryGc (outside : Option (ℕ × ℕ)) (lba ppa : ℕ) : Except Abort (SftlMonitor × ℕ) :=
  s.updateEntryWith outside true none lba ppa

/-- `nocpu_sftl_insert_entry_from_translation`, with the hint that is left. -/
def insertEntryFromTranslation (gtdIdx evictionHint orgEvictionHint : ℕ) :
    Except Abort (SftlMonitor × ℕ) := do
  require .outOfBounds (gtdIdx < gtdNum)
  require .lruNodeExists (s.privateData gtdIdx = none)
  let s := { s.lruPush gtdIdx (s.tempEnt gtdIdx) with
    tempEnt := Function.update s.tempEnt gtdIdx none
    status := Function.update s.status gtdIdx .clean
    nowCachingByte := (s.nowCachingByte + s.gtdSize gtdIdx) % 2 ^ 32 }
  let evictionHint := (evictionHint + 2 ^ 32 - orgEvictionHint) % 2 ^ 32
  s.sftlSizeChecker evictionHint
  return (s, evictionHint)

/-- `nocpu_sftl_get_eviction_GTD_entry`: the scan of the LRU list from the page used longest ago.
A clean page is evicted, and a dirty one is returned. -/
def getEvictionGtdEntry : List ℕ → Except Abort (SftlMonitor × Option ℕ)
  | [] => .ok (s, none)
  | gtdIdx :: rest =>
      match s.status gtdIdx with
      | .flying => getEvictionGtdEntry rest
      | .evicting => getEvictionGtdEntry rest
      | .clean => .ok (s.lruDelete gtdIdx (s.privateData gtdIdx).join, none)
      | .dirty => .ok (s, some gtdIdx)
      | _ => .error .demandStatus

/-- `nocpu_sftl_update_eviction_target_translation`: the page and the addresses that are
written. -/
def updateEvictionTargetTranslation (gtdIdx : ℕ) : Except Abort (SftlMonitor × (ℕ → ℕ)) := do
  let node ← orThrow .nullArray (s.privateData gtdIdx)
  let sc ← orThrow .nullArray node
  return (s.lruDelete gtdIdx (some sc), sc.headArray)

/-- `nocpu_sftl_update_from_translation_gc`, with the address that the lba had. -/
def updateFromTranslationGc (outside : Option (ℕ × ℕ)) (lba ppa : ℕ) :
    Except Abort (SftlMonitor × ℕ) := do
  let gtdIdx := getGtdIdx lba
  require .outOfBounds (gtdIdx < gtdNum)
  let sc ← orThrow .nullArray (s.tempEnt gtdIdx)
  let headArray := Function.update sc.headArray (transOffset lba) ppa
  let runLength ← updateRunLengthWith outside sc.runLength (transOffset lba) ppa headArray
  let sc := { sc with headArray := headArray, runLength := runLength }
  return ({ s with
    realMapping := Function.update s.realMapping lba ppa
    tempEnt := Function.update s.tempEnt gtdIdx (some sc)
    gtdSize := Function.update s.gtdSize gtdIdx sc.gtdSize }, s.realMapping lba)

/-- `nocpu_sftl_force_put_mru`. -/
def forcePutMru (gtdIdx : ℕ) : Except Abort SftlMonitor := do
  require .nullArray ((s.privateData gtdIdx).isSome = true)
  return { s with lru := gtdIdx :: s.lru.erase gtdIdx }

/-- The next step of the cache, with what an iterator in front of the first run points to. -/
def step (s : SftlMonitor) (call : Option (ℕ × ℕ) × SftlOp) : Except Abort SftlMonitor :=
  match call.2 with
  | .updateEntry lba ppa evictionHint => do
      let res ← s.updateEntry call.1 lba ppa evictionHint
      return res.1
  | .updateEntryGc lba ppa => do
      let res ← s.updateEntryGc call.1 lba ppa
      return res.1
  | .insertEntryFromTranslation gtdIdx evictionHint orgEvictionHint => do
      let res ← s.insertEntryFromTranslation gtdIdx evictionHint orgEvictionHint
      return res.1
  | .getEvictionGtdEntry => do
      let res ← s.getEvictionGtdEntry s.lru.reverse
      return res.1
  | .updateEvictionTargetTranslation gtdIdx => do
      let res ← s.updateEvictionTargetTranslation gtdIdx
      return res.1
  | .updateFromTranslationGc lba ppa => do
      let res ← s.updateFromTranslationGc call.1 lba ppa
      return res.1
  | .forcePutMru gtdIdx => s.forcePutMru gtdIdx
  | .setStatus gtdIdx status _ =>
      .ok { s with status := Function.update s.status gtdIdx status }

end SftlMonitor

end Dftl

end AppL
