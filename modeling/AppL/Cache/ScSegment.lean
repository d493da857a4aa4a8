import AppL.BlockManager
import AppL.Cache.PageCache

/-!
# The segment of the shortcut pages

A dirty shortcut page is written to a page of the shortcut segment when it is evicted.  When
the segment is full, its valid pages are read, the segment is erased, and they are written to
its first pages; the cache is told their new addresses.
-/

namespace AppL

open Transition

/-- What happens to the shortcut pages: an update of a page, and a write of a page to an
address. -/
inductive Event where
  | update (scidx : ℕ)
  | write (scidx ppa : ℕ)
  deriving DecidableEq, Repr

/-- The cache layer: the page cache and the block manager with the shortcut segment.  `log`
is a record of the updates of the shortcut pages and of their writes, the last one first. -/
structure CacheLayer where
  pcs : PcSet
  bm : BlockManager
  scSeg : ℕ
  log : List Event

namespace CacheLayer

variable (g : Geometry) (c : CacheLayer)

/-- The cache layer after `cache_layer_init`, with an empty shortcut segment. -/
def init (maxCachedSize lbaNum : ℕ) (scPinning : Bool) (scSeg : ℕ) : CacheLayer where
  pcs := PcSet.init maxCachedSize lbaNum scPinning
  bm := BlockManager.create g
  scSeg := scSeg
  log := []

/-! ### Addresses from the shortcut segment -/

/-- The valid pages of the shortcut segment. -/
def validPages : List ℕ := (g.pages c.scSeg).filter fun p => c.bm.bitset (p * l2pgap)

/-- The shortcut page that the out-of-band area of a page names. -/
def oobScidx (ppa : ℕ) : ℕ := c.bm.oob (ppa * l2pgap)

/-- The blocks and the counters of the shortcut segment are initialised again. -/
def resetSegment (bm : BlockManager) (s : ℕ) : BlockManager :=
  { bm with
    block := fun b => if b / g.bps = s then ⟨0, 0, 0, false⟩ else bm.block b
    segment := Function.update bm.segment s ⟨0, 0, 0, 0, 0⟩
    bitset := fun q => if g.sid q = s then false else bm.bitset q
    oob := fun q => if g.sid q = s then 0 else bm.oob q }

/-- A shortcut page is written to the next page of the segment. -/
def rewritePage (s : ℕ) (bm : BlockManager) (scidx : ℕ) :
    Except Abort (ℕ × BlockManager) := do
  let (ppa, bm) ← bm.getPageAddr g s
  let ppa ← orThrow .outOfBounds ppa
  let bm := bm.setOob [scidx] ppa
  return (ppa, (bm.bitSet g (ppa * l2pgap)).2)

/-- The valid pages are written to the segment one after another; the result has their new
addresses. -/
def rewritePages (s : ℕ) : BlockManager → List ℕ → Except Abort (List ℕ × BlockManager)
  | bm, [] => .ok ([], bm)
  | bm, i :: is => do
      let (ppa, bm) ← rewritePage g s bm i
      let (ppas, bm) ← rewritePages s bm is
      return (ppa :: ppas, bm)

/-- `cache_update_pc_ppa_by_gc`: the new addresses of shortcut pages.  A dirty page becomes a
clean one. -/
def updatePcPpaByGc (pcs : PcSet) : List (ℕ × ℕ) → Except Abort PcSet
  | [] => .ok pcs
  | (i, ppa) :: l => do
      let pc ← orThrow .outOfBounds (pcs.cachedSc[i]?)
      let flag := if pc.flag = .dirty then .clean else pc.flag
      updatePcPpaByGc (pcs.put .shortcut i { pc with flag := flag, ppa := some ppa }) l

/-- The garbage collection of `lsm_get_ppa_from_scseg`. -/
def scGc : Except Abort CacheLayer := do
  let scidxSet := (c.validPages g).map c.oobScidx
  let (newPpaSet, bm) ← rewritePages g c.scSeg (resetSegment g c.bm c.scSeg) scidxSet
  let pcs ← updatePcPpaByGc c.pcs (scidxSet.zip newPpaSet)
  return { c with pcs := pcs, bm := bm }

/-- The segment is collected when it is full. -/
def scGcIfFull : Except Abort CacheLayer :=
  if c.bm.checkFull g c.scSeg = true then scGc g c else .ok c

/-- `lsm_get_ppa_from_scseg`. -/
def getPpaFromScseg : Except Abort (ℕ × CacheLayer) := do
  let c ← scGcIfFull g c
  let (ppa, bm) ← c.bm.getPageAddr g c.scSeg
  let ppa ← orThrow .outOfBounds ppa
  return (ppa, { c with bm := bm })

/-- The old copy of a page, if it has one, becomes invalid. -/
def unsetOld (bm : BlockManager) : Option ℕ → BlockManager
  | none => bm
  | some old => (bm.bitUnset g (old * l2pgap)).2

/-- `cache_get_ppa`: the address for the write of a shortcut page.  The address of its old
copy is the one before the garbage collection. -/
def getPpa (scidx : ℕ) (pc : PageCache) : Except Abort (ℕ × CacheLayer) := do
  let (res, c) ← getPpaFromScseg g c
  let bm := (unsetOld g c.bm pc.ppa).setOob [scidx] res
  return (res, { c with bm := (bm.bitSet g (res * l2pgap)).2 })

/-! ### Evictions -/

/-- The write of a page in `pc_evict`, if it is dirty. -/
def writeBack (scidx : ℕ) (pc : PageCache) : Except Abort CacheLayer :=
  if pc.flag = .dirty then do
    let (newPpa, c) ← getPpa g c scidx pc
    let pc ← orThrow .outOfBounds (c.pcs.cachedSc[scidx]?)
    return { c with
      pcs := c.pcs.put .shortcut scidx { pc with ppa := some newPpa }
      log := .write scidx newPpa :: c.log }
  else
    .ok c

/-- A turn of the loop of `pc_evict` for the node `n` at the tail of the LRU list. -/
def evictNode (n : LruNode) : Except Abort CacheLayer :=
  have pcs : PcSet := { c.pcs with
    lru := c.pcs.lru.dropLast
    nowCachedSize := c.pcs.nowCachedSize - n.size }
  match n.type with
  | .shortcut => do
      let c : CacheLayer := { c with pcs := { pcs with cachedScNum := pcs.cachedScNum - 1 } }
      let pc ← orThrow .outOfBounds (c.pcs.cachedSc[n.id]?)
      require .cacheFlag (pc.flag = .dirty ∨ pc.flag = .clean)
      let c ← writeBack g c n.id pc
      let pc ← orThrow .outOfBounds (c.pcs.cachedSc[n.id]?)
      return { c with
        pcs := c.pcs.put .shortcut n.id { pc with node := false, flag := .empty } }
  | .idx => do
      require .cachedIdxNum (pcs.cachedIdxNum = pcs.idxSize)
      require .outOfBounds ((pcs.cachedIdx.lookup n.id).isSome = true)
      return { c with
        pcs := { pcs with
          cachedIdxNum := pcs.cachedIdxNum - 1
          cachedIdx := pcs.cachedIdx.erase n.id } }

/-- The loop of `pc_evict` over the nodes from the tail of the LRU list on, until
`targetSize` bytes are free.  When there is no node, the size of the cache is made up from
the shortcut pages that are not empty, and unless that frees enough the loop goes on with a
null page. -/
def evictLoop : List LruNode → CacheLayer → ℤ → Except Abort CacheLayer
  | [], c, targetSize =>
      if targetSize ≤ 0 then
        .ok c
      else
        let now : ℤ := c.pcs.cachedSc.countP (fun pc => pc.flag ≠ .empty) * pagesize
        if targetSize < c.pcs.maxCachedSize - now then
          .ok { c with pcs := { c.pcs with nowCachedSize := now } }
        else
          .error .outOfBounds
  | n :: l, c, targetSize =>
      if targetSize ≤ 0 then
        .ok c
      else do
        let c ← evictNode g c n
        evictLoop l c (targetSize - n.size)

/-- `pc_evict`. -/
def evict (needSize : ℤ) : Except Abort CacheLayer :=
  let remainSize := c.pcs.maxCachedSize - c.pcs.nowCachedSize
  if remainSize > needSize then
    .ok c
  else
    evictLoop g c.pcs.lru.reverse c (needSize - remainSize)

/-- `pc_set_insert`. -/
def setInsert (type : CacheType) (id : ℕ) : Except Abort CacheLayer := do
  let pcs ← c.pcs.push type id
  let c : CacheLayer := { c with pcs := pcs }
  if c.pcs.nowCachedSize > c.pcs.maxCachedSize then
    evict g c 0
  else
    return c

/-- `pc_set_update`, with its record in the log. -/
def setUpdate (id : ℕ) : Except Abort CacheLayer := do
  let pcs ← c.pcs.update id
  return { c with pcs := pcs, log := .update id :: c.log }

end CacheLayer

end AppL
