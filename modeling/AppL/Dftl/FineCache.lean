import Mathlib.Data.List.Basic
import AppL.Dftl.Basic
import AppL.Lib.Transition

/-!
# The fine-grained cache

The cache of single mapping entries.  An entry is `CLEAN`, `DIRTY`, or `EVICTING` while a
request holds a pointer to it and waits for its translation page.  The cache has the entries
in an LRU list, finds them by their lba, and marks the lbas that it has in a bitmap.  Pointers
are the numbers of the allocations, so that a pointer to a freed entry points to nothing.
-/

namespace AppL

open Transition

/-- The contents of a translation page: an address for every offset. -/
abbrev TransData := ℕ → ℕ

/-- The flags of a cached entry. -/
inductive DirtyFlag where
  | clean
  | dirty
  | evicting
  deriving DecidableEq, Repr

/-- A `fine_cache` with its `fine_cache_node`. -/
structure FineCache where
  lba : ℕ
  ppa : ℕ
  flag : DirtyFlag
  deriving DecidableEq, Repr

/-- The `fine_cache_monitor`.  `heap` has the allocated entries, `map` is the tree of the LRU
list that finds a pointer by its lba, and the head of `lru` is the entry used last. -/
structure FineCacheMonitor where
  heap : ℕ → Option FineCache
  nextAddr : ℕ
  map : ℕ → Option ℕ
  lru : List ℕ
  populatedCacheEntry : ℕ → Bool
  nowCachingMap : ℕ
  nowEvictingMap : ℤ
  gtdInternalState : ℕ → Bool

/-- What `fine_get_eviction_entry` found: a clean entry, which is gone; the pointer of a dirty
one, which is now `EVICTING`; or only entries that are being evicted. -/
inductive Eviction where
  | clean
  | dirty (addr : ℕ)
  | allEntryEvicting
  deriving DecidableEq, Repr

namespace FineCacheMonitor

variable (bitQuery : ℕ → Bool) (fcm : FineCacheMonitor)

/-- `fine_init`. -/
def init : FineCacheMonitor where
  heap _ := none
  nextAddr := 0
  map _ := none
  lru := []
  populatedCacheEntry _ := false
  nowCachingMap := 0
  nowEvictingMap := 0
  gtdInternalState _ := false

/-- The entry that a pointer points to. -/
def deref (addr : ℕ) : Except Abort FineCache := orThrow .useAfterFree (fcm.heap addr)

/-- `lru_find`. -/
def lruFind (lba : ℕ) : Option ℕ := fcm.map lba

/-- A new entry, at the head of the LRU list. -/
def pushed (fc : FineCache) : FineCacheMonitor :=
  { fcm with
    heap := Function.update fcm.heap fcm.nextAddr (some fc)
    nextAddr := fcm.nextAddr + 1
    map := Function.update fcm.map fc.lba (some fcm.nextAddr)
    lru := fcm.nextAddr :: fcm.lru
    populatedCacheEntry := Function.update fcm.populatedCacheEntry fc.lba true
    nowCachingMap := fcm.nowCachingMap + 1 }

/-- `lru_push`, with the bit of the lba and the count of the entries. -/
def lruPush (fc : FineCache) : Except Abort FineCacheMonitor := do
  require .lruKey (fcm.map fc.lba = none)
  return fcm.pushed fc

/-- `lru_update`: the entry becomes the one used last. -/
def lruUpdate (addr : ℕ) : FineCacheMonitor :=
  { fcm with lru := addr :: fcm.lru.filter (· ≠ addr) }

/-- An entry leaves the LRU list and is freed. -/
def lruDelete (addr lba : ℕ) : FineCacheMonitor :=
  { fcm with
    heap := Function.update fcm.heap addr none
    map := Function.update fcm.map lba none
    lru := fcm.lru.filter (· ≠ addr)
    populatedCacheEntry := Function.update fcm.populatedCacheEntry lba false
    nowCachingMap := fcm.nowCachingMap - 1 }

/-- A store to the entry at a pointer. -/
def store (addr : ℕ) (fc : FineCache) : FineCacheMonitor :=
  { fcm with heap := Function.update fcm.heap addr (some fc) }

/-- `__update_entry`, with the address that the entry had. -/
def updateEntryWith (isgc : Bool) (lba ppa : ℕ) : Except Abort (FineCacheMonitor × ℕ) :=
  match fcm.lruFind lba with
  | none =>
      if isgc then .ok (fcm, uint32Max)
      else do
        let fcm ← fcm.lruPush ⟨lba, ppa, .dirty⟩
        return (fcm, uint32Max)
  | some addr => do
      let fc ← fcm.deref addr
      let stored := fcm.store addr ⟨fc.lba, ppa, .dirty⟩
      return (if isgc then stored else stored.lruUpdate addr, fc.ppa)

/-- `fine_update_entry`. -/
def updateEntry (lba ppa : ℕ) : Except Abort (FineCacheMonitor × ℕ) :=
  fcm.updateEntryWith false lba ppa

/-- `fine_update_entry_gc`. -/
def updateEntryGc (lba ppa : ℕ) : Except Abort (FineCacheMonitor × ℕ) :=
  fcm.updateEntryWith true lba ppa

/-- The check of the block manager that an address of the mapping is valid. -/
def checkPpa (ppa : ℕ) : Except Abort Unit :=
  require .invalidatedPpa (ppa = uint32Max ∨ bitQuery ppa = true)

/-- `fine_insert_entry_from_translation`, for the page of an entry that is not `EMPTY`. -/
def insertEntryFromTranslation (lba : ℕ) (data : TransData) : Except Abort FineCacheMonitor :=
  if fcm.populatedCacheEntry lba then .ok fcm
  else do
    checkPpa bitQuery (data (transOffset lba))
    fcm.lruPush ⟨lba, data (transOffset lba), .clean⟩

/-- `fine_get_mapping`. -/
def getMapping (lba : ℕ) : Except Abort (FineCacheMonitor × ℕ) := do
  let addr ← orThrow .outOfBounds (fcm.lruFind lba)
  let fc ← fcm.deref addr
  return (fcm.lruUpdate addr, fc.ppa)

/-- The scan of `fine_get_eviction_entry`, from the entry used longest ago, for the first one
that is not being evicted. -/
def victim : List ℕ → Except Abort (Option ℕ)
  | [] => .ok none
  | addr :: rest => do
      let fc ← fcm.deref addr
      if fc.flag = .evicting then victim rest else .ok (some addr)

/-- `fine_get_eviction_entry`, for the entry that the scan has found. -/
def takeVictim : Option ℕ → Except Abort (FineCacheMonitor × Eviction)
  | none => .ok (fcm, .allEntryEvicting)
  | some addr => do
      let fc ← fcm.deref addr
      checkPpa bitQuery fc.ppa
      if fc.flag = .clean then return (fcm.lruDelete addr fc.lba, .clean)
      else return ({ fcm.store addr { fc with flag := .evicting } with
        nowEvictingMap := fcm.nowEvictingMap + 1 }, .dirty addr)

/-- `fine_get_eviction_entry`. -/
def getEvictionEntry : Except Abort (FineCacheMonitor × Eviction) := do
  let found ← fcm.victim fcm.lru.reverse
  fcm.takeVictim bitQuery found

/-- One entry less is being evicted, if `left` holds. -/
def leaveEvicting (left : Prop) [Decidable left] : Except Abort FineCacheMonitor :=
  if left then do
    require .evictingMap (0 ≤ fcm.nowEvictingMap - 1)
    return { fcm with nowEvictingMap := fcm.nowEvictingMap - 1 }
  else .ok fcm

/-- The turn of the batch update for one lba of the translation page.  `target` is the lba of
the entry that is evicted. -/
def batchTurn (target : ℕ) (st : FineCacheMonitor × TransData) (lba : ℕ) :
    Except Abort (FineCacheMonitor × TransData) :=
  match st.1.lruFind lba with
  | none => .ok st
  | some addr => do
      let fc ← st.1.deref addr
      checkPpa bitQuery fc.ppa
      if fc.flag = .clean then return st
      else do
        let fcm ← st.1.leaveEvicting (fc.flag = .evicting ∧ fc.lba = target)
        return (fcm.store addr { fc with flag := .clean },
          Function.update st.2 (transOffset fc.lba) fc.ppa)

/-- The batch update: every cached entry of translation page `gtdIdx` that is not clean is
copied to the page. -/
@[irreducible]
def batchUpdate (gtdIdx target : ℕ) (data : TransData) :
    Except Abort (FineCacheMonitor × TransData) :=
  ((List.range dmfPerPage).map (gtdIdx * dmfPerPage + ·)).foldlM (batchTurn bitQuery target)
    (fcm, data)

/-- The flags before an eviction: those of the batch, or only the one of the target. -/
def updateFlags (batch : Bool) (addr : ℕ) (fc : FineCache) (data : TransData) :
    Except Abort (FineCacheMonitor × TransData) :=
  if batch then fcm.batchUpdate bitQuery (getGtdIdx fc.lba) fc.lba data
  else .ok (fcm.store addr { fc with flag := .clean }, data)

/-- `fine_evict_target`. -/
def evictTarget (addr : ℕ) : Except Abort FineCacheMonitor := do
  let fc ← fcm.deref addr
  require .updatedEvicting (fc.flag ≠ .dirty)
  let fcm ← fcm.leaveEvicting (fc.flag = .evicting)
  return fcm.lruDelete addr fc.lba

/-- The first time that a page is written, it is cleared. -/
def clearFirst (gtdIdx : ℕ) (data : TransData) : FineCacheMonitor × TransData :=
  if fcm.gtdInternalState gtdIdx then (fcm, data)
  else ({ fcm with gtdInternalState := Function.update fcm.gtdInternalState gtdIdx true },
    fun _ => uint32Max)

/-- `fine_update_eviction_target_translation`: the entry at `addr` is written to the page and
evicted, and in a batch the other entries of the page are written too. -/
def updateEvictionTargetTranslation (batch : Bool) (addr : ℕ) (data : TransData) :
    Except Abort (FineCacheMonitor × TransData) := do
  let fc ← fcm.deref addr
  let first := fcm.clearFirst (getGtdIdx fc.lba) data
  let (fcm, data) ← first.1.updateFlags bitQuery batch addr fc first.2
  let fc ← fcm.deref addr
  checkPpa bitQuery fc.ppa
  let fcm ← fcm.evictTarget addr
  return (fcm, Function.update data (transOffset fc.lba) fc.ppa)

end FineCacheMonitor

/-- A request in the list of a translation page: it reads the entry of an lba, and a write then
assigns an address to it; or it evicts the entry at a pointer. -/
inductive PendingReq where
  | missr (lba : ℕ) (write : Option ℕ)
  | evictionr (addr : ℕ)
  deriving DecidableEq, Repr

/-- The pointers that the requests of a list hold in `et.mapping`. -/
def PendingReq.targets (reqs : List PendingReq) : List ℕ :=
  reqs.filterMap fun
    | .missr _ _ => none
    | .evictionr addr => some addr

/-- The assignments of the writes of a list. -/
def PendingReq.writes (reqs : List PendingReq) : List (ℕ × ℕ) :=
  reqs.filterMap fun
    | .missr lba (some ppa) => some (lba, ppa)
    | _ => none

/-- The cache with the translation pages in flash and the requests that wait for them.  A page
that was never written is not there: its entry is `EMPTY`, without a physical address. -/
structure FineMap where
  cache : FineCacheMonitor
  page : ℕ → Option TransData
  pendingReq : ℕ → List PendingReq

/-- The calls of the cache. -/
inductive FineCall where
  /-- a write that hits, or that needs no translation page -/
  | updateEntry (lba ppa : ℕ)
  /-- a garbage collection moves the piece of a cached lba -/
  | updateEntryGc (lba ppa : ℕ)
  /-- a read that hits -/
  | getMapping (lba : ℕ)
  /-- an entry of a translation page is cached -/
  | insertEntryFromTranslation (lba : ℕ)
  /-- a miss waits for its translation page -/
  | missRead (lba : ℕ) (write : Option ℕ)
  /-- a request evicts an entry, and waits for its translation page if it is dirty -/
  | getEvictionEntry
  /-- the completion of one eviction from translation page `gtdIdx` -/
  | updateEvictionTargetTranslation (gtdIdx addr : ℕ) (batch : Bool)
  /-- the completion of all requests that wait for translation page `gtdIdx` -/
  | pending (gtdIdx : ℕ)

/-- The buffer of `demand_map_fine_type_pending`: `isUpdateMapping` says that an eviction has
changed it. -/
structure PendingBuffer where
  cache : FineCacheMonitor
  value : TransData
  isUpdateMapping : Bool

namespace FineMap

variable (bitQuery : ℕ → Bool) (s : FineMap)

/-- The empty cache. -/
def init : FineMap where
  cache := .init
  page _ := none
  pendingReq _ := []

/-- The value that the translation page of an lba has for it. -/
def flash (lba : ℕ) : ℕ :=
  match s.page (getGtdIdx lba) with
  | some data => data (transOffset lba)
  | none => uint32Max

/-- The buffer that a request has for a translation page. -/
def buffer (gtdIdx : ℕ) : TransData := (s.page gtdIdx).getD fun _ => 0

/-- A request enters the list of a translation page. -/
def listInsert (gtdIdx : ℕ) (req : PendingReq) : FineMap :=
  { s with pendingReq :=
      Function.update s.pendingReq gtdIdx (s.pendingReq gtdIdx ++ [req]) }

/-- A read or a write that has its entry in the cache. -/
def finishMiss (fcm : FineCacheMonitor) (lba : ℕ) : Option ℕ → Except Abort FineCacheMonitor
  | none => do
      let (fcm, _) ← fcm.getMapping lba
      return fcm
  | some ppa => do
      let (fcm, _) ← fcm.updateEntry lba ppa
      return fcm

/-- The turn of `demand_map_fine_type_pending` for one request.  The first eviction updates
the page for all entries, the others find their entries in it. -/
def pendingTurn (b : PendingBuffer) : PendingReq → Except Abort PendingBuffer
  | .missr lba write => do
      let fcm ← b.cache.insertEntryFromTranslation bitQuery lba b.value
      let fcm ← finishMiss fcm lba write
      return { b with cache := fcm }
  | .evictionr addr =>
      if b.isUpdateMapping then do
        let fcm ← b.cache.evictTarget addr
        return { b with cache := fcm }
      else do
        let (fcm, value) ← b.cache.updateEvictionTargetTranslation bitQuery true addr b.value
        return ⟨fcm, value, true⟩

/-- `write_updated_map`, if the buffer was changed. -/
def writeUpdatedMap (gtdIdx : ℕ) (b : PendingBuffer) : FineMap :=
  { s with
    cache := b.cache
    page := if b.isUpdateMapping then Function.update s.page gtdIdx (some b.value) else s.page }

/-- `demand_map_fine_type_pending`. -/
def fineTypePending (gtdIdx : ℕ) : Except Abort FineMap := do
  let b ← (s.pendingReq gtdIdx).foldlM (pendingTurn bitQuery)
    ⟨s.cache, s.buffer gtdIdx, false⟩
  let s := s.writeUpdatedMap gtdIdx b
  return { s with pendingReq := Function.update s.pendingReq gtdIdx [] }

/-- A dirty entry that is evicted waits for its translation page. -/
def waitEviction : Eviction → Except Abort FineMap
  | .dirty addr => do
      let fc ← s.cache.deref addr
      return s.listInsert (getGtdIdx fc.lba) (.evictionr addr)
  | _ => .ok s

/-- The entry that `fine_get_eviction_entry` is going to choose is one that a request holds
already. -/
def heldVictim : Bool :=
  match s.cache.victim s.cache.lru.reverse with
  | .ok (some addr) =>
      match s.cache.heap addr with
      | some fc => decide (addr ∈ PendingReq.targets (s.pendingReq (getGtdIdx fc.lba)))
      | none => false
  | _ => false

/-- A call, with the validity bits that the block manager has then. -/
def exec : FineCall → Except Abort FineMap
  | .updateEntry lba ppa => do
      let (fcm, _) ← s.cache.updateEntry lba ppa
      return { s with cache := fcm }
  | .updateEntryGc lba ppa => do
      let (fcm, _) ← s.cache.updateEntryGc lba ppa
      return { s with cache := fcm }
  | .getMapping lba => do
      let (fcm, _) ← s.cache.getMapping lba
      return { s with cache := fcm }
  | .insertEntryFromTranslation lba => do
      let data ← orThrow .emptyEntry (s.page (getGtdIdx lba))
      let fcm ← s.cache.insertEntryFromTranslation bitQuery lba data
      return { s with cache := fcm }
  | .missRead lba write => do
      -- a page that is not in flash is not read
      require .wrongPhase ((s.page (getGtdIdx lba)).isSome = true)
      return s.listInsert (getGtdIdx lba) (.missr lba write)
  | .getEvictionEntry => do
      let (fcm, found) ← s.cache.getEvictionEntry bitQuery
      { s with cache := fcm }.waitEviction found
  | .updateEvictionTargetTranslation gtdIdx addr batch => do
      require .wrongPhase (.evictionr addr ∈ s.pendingReq gtdIdx)
      let (fcm, value) ← s.cache.updateEvictionTargetTranslation bitQuery batch addr
        (s.buffer gtdIdx)
      let s := s.writeUpdatedMap gtdIdx ⟨fcm, value, true⟩
      return { s with pendingReq :=
        Function.update s.pendingReq gtdIdx ((s.pendingReq gtdIdx).erase (.evictionr addr)) }
  | .pending gtdIdx => s.fineTypePending bitQuery gtdIdx

/-- The assignments that a call makes, in their order. -/
def assigned : FineCall → List (ℕ × ℕ)
  | .updateEntry lba ppa => [(lba, ppa)]
  | .updateEntryGc lba ppa => if s.cache.populatedCacheEntry lba then [(lba, ppa)] else []
  | .pending gtdIdx => PendingReq.writes (s.pendingReq gtdIdx)
  | _ => []

end FineMap

/-- The cache with the value last assigned to every lba. -/
structure FineRecord where
  map : FineMap
  last : ℕ → ℕ

namespace FineRecord

/-- The values after some assignments. -/
def assign (last : ℕ → ℕ) (l : List (ℕ × ℕ)) : ℕ → ℕ :=
  l.foldl (fun last q => Function.update last q.1 q.2) last

/-- The empty cache, with no lba assigned. -/
def init : FineRecord where
  map := .init
  last _ := uint32Max

/-- A call with its assignments.  The bits are those of the block manager at the call. -/
def step (r : FineRecord) (call : (ℕ → Bool) × FineCall) : Except Abort FineRecord := do
  let map ← r.map.exec call.1 call.2
  return ⟨map, assign r.last (r.map.assigned call.2)⟩

end FineRecord

end AppL
