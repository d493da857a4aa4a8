import AppL.SegmentPool

/-!
# The table of blocks and the garbage collection

`L2P_bm` hands out the blocks of the data segment and the pages of the summary segment.  When
no segment is free, the garbage collection takes victims from the heap.  A victim without
valid pieces is erased; the valid pieces of a summary segment are moved to the active summary
segment or to the reserve, the blocks of a data segment to the other reserve, which then
becomes the active segment.  Victims of the wrong type wait in a queue and go back to the
heap.  The shortcut has a third reserve, which it never gives back.
-/

namespace AppL

open Transition

/-- The types of segments. -/
inductive SegType where
  | emptySeg
  | summarySeg
  | dataSeg
  deriving DecidableEq, Repr

/-- The types of blocks.  `LSM_BLOCK_FRAGMENT` and `LSM_BLOCK_MIXED` are blocks of pinned
runs, and there are none. -/
inductive LsmBlockType where
  | lsmBlockEmpty
  | lsmBlockSummary
  | lsmBlockNormal
  deriving DecidableEq, Repr

/-- `block_info`: the type of a block, and the sorted table and the entry it belongs to. -/
structure BlockInfo where
  type : LsmBlockType
  owner : Option (ℕ × ℕ)
  deriving DecidableEq, Repr

/-- The results of `gc`. -/
inductive GcResult where
  | gcTrim
  | gcDiffSeg
  | gcCopy
  deriving DecidableEq, Repr

/-- `L2P_bm`.  `victims` are the segments that the heap will give, in this order; which of the
segments with the largest count is given depends on the places they have in the heap. -/
structure L2pBm where
  pool : SegmentPool
  segType : ℕ → SegType
  pbaMap : ℕ → BlockInfo
  reserveSeg : ℕ
  reserveSummarySeg : ℕ
  nowSummarySeg : ℕ
  reserveBlockIdx : ℕ
  nowBlockIdx : ℕ
  nowSegIdx : Option ℕ
  victims : List ℕ

/-- `__mh_get_cnt` of the layered LSM tree. -/
def Geometry.heapCnt (g : Geometry) (s : Segment) : ℤ :=
  s.invalidBlockNum * (g.pps * l2pgap : ℕ) + s.invalidatePieceNum

namespace L2pBm

variable (g : Geometry) (b : L2pBm)

/-! ### Calls of the block manager -/

/-- A call of the block manager. -/
def call (op : SegmentOp) : Except Abort L2pBm := do
  let pool ← b.pool.step g g.heapCnt op
  return { b with pool := pool }

/-- `get_segment`. -/
def getSegment (use : SegUse) : Except Abort (ℕ × L2pBm) := do
  let s ← orThrow .noFreeSegment b.pool.bm.freeSegmentQ.head?
  let b ← b.call g (.getSegment use)
  return (s, b)

/-- `L2PBm_set_seg_type`. -/
def setSegType (s : ℕ) (type : SegType) : L2pBm :=
  { b with segType := Function.update b.segType s type }

/-- `get_gc_target`; without a segment in the heap there is none. -/
def getGcTarget : Except Abort (Option ℕ × L2pBm) :=
  if b.pool.bm.maxHeap = [] then
    .ok (none, b)
  else
    match b.victims with
    | [] => .error .noGcTarget
    | target :: victims => do
        let b ← call g { b with victims := victims } (.getGcTarget target)
        return (some target, b)

/-- `get_page_addr`; the code uses the address without asking whether the segment is full. -/
def getPageAddr (s : ℕ) : Except Abort (ℕ × L2pBm) := do
  let (page, _) ← b.pool.bm.getPageAddr g s
  let page ← orThrow .outOfBounds page
  let b ← b.call g (.getPageAddr s)
  return (page, b)

/-- `is_invalid_piece`. -/
def isInvalidPiece (piecePpa : ℕ) : Bool := !b.pool.bm.bitset piecePpa

/-- `validate_piece_ppa` with `force` set. -/
def validatePiecePpa (piecePpa : ℕ) : Except Abort L2pBm := do
  require .bitError (b.isInvalidPiece piecePpa = true)
  b.call g (.bitSet piecePpa)

/-- `invalidate_piece_ppa` with `force` set. -/
def invalidatePiecePpa (piecePpa : ℕ) : Except Abort L2pBm := do
  require .bitError (b.isInvalidPiece piecePpa = false)
  b.call g (.bitUnset piecePpa)

/-- The pieces of a page. -/
def pieces (ppa : ℕ) : List ℕ := (List.range l2pgap).map (ppa * l2pgap + ·)

/-- The page has a valid piece. -/
def readFlag (ppa : ℕ) : Bool := (pieces ppa).any fun q => !b.isInvalidPiece q

/-- The out-of-band area of a page. -/
def getOob (ppa : ℕ) : List ℕ := (pieces ppa).map b.pool.bm.oob

/-! ### The table -/

/-- `L2PBm_init`, and the reserve that `lsmtree_init` takes for the shortcut. -/
def init (victims : List ℕ) : Except Abort L2pBm := do
  let b : L2pBm :=
    { pool := SegmentPool.create g
      segType := fun _ => .emptySeg
      pbaMap := fun _ => ⟨.lsmBlockEmpty, none⟩
      reserveSeg := 0
      reserveSummarySeg := 0
      nowSummarySeg := 0
      reserveBlockIdx := 0
      nowBlockIdx := 0
      nowSegIdx := none
      victims := victims }
  let (s, b) ← b.getSegment g .reserve
  let b := { b.setSegType s .dataSeg with reserveSeg := s }
  let (s, b) ← b.getSegment g .reserve
  let b := { b.setSegType s .summarySeg with reserveSummarySeg := s }
  let (s, b) ← b.getSegment g .active
  let b := { b.setSegType s .summarySeg with nowSummarySeg := s }
  let (_, b) ← b.getSegment g .reserve
  return b

/-- `L2PBm_make_map`: the block belongs to an entry of a sorted table. -/
def makeMap (pba sid intraIdx : ℕ) : Except Abort L2pBm := do
  require .mappingNotEmpty ((b.pbaMap (pba / g.ppb)).owner = none)
  return { b with
    pbaMap := Function.update b.pbaMap (pba / g.ppb) ⟨.lsmBlockNormal, some (sid, intraIdx)⟩ }

/-- `L2PBm_move_owner`: the block goes to an entry of another sorted table. -/
def moveOwner (pba sid intraIdx : ℕ) : Except Abort L2pBm := do
  require .mappingEmpty ((b.pbaMap (pba / g.ppb)).owner ≠ none)
  require .notNormalBlock ((b.pbaMap (pba / g.ppb)).type = .lsmBlockNormal)
  return { b with
    pbaMap := Function.update b.pbaMap (pba / g.ppb) ⟨.lsmBlockNormal, some (sid, intraIdx)⟩ }

/-- The block of a summary page. -/
def markSummary (ppa : ℕ) : L2pBm :=
  { b with
    pbaMap := Function.update b.pbaMap (ppa / g.ppb)
      { b.pbaMap (ppa / g.ppb) with type := .lsmBlockSummary } }

/-- `L2PBm_pick_empty_RPBA`: the next block of the reserve. -/
def pickEmptyRpba : Except Abort (ℕ × L2pBm) := do
  require .blockOverflow (b.reserveBlockIdx ≠ g.bps)
  return (b.reserveSeg * g.pps + b.reserveBlockIdx * g.ppb,
    { b with reserveBlockIdx := b.reserveBlockIdx + 1 })

/-- `L2PBm_get_map_rppa`: the next page of the reserve for summary pages. -/
def getMapRppa : Except Abort (ℕ × L2pBm) := do
  require .reserveFull (b.pool.bm.checkFull g b.reserveSummarySeg = false)
  let (ppa, b) ← b.getPageAddr g b.reserveSummarySeg
  return (ppa, b.markSummary g ppa)

/-- `__clear_block_and_gsegment`: the blocks of a victim are forgotten, and it is erased. -/
def clearBlockAndGsegment (target : ℕ) : Except Abort L2pBm :=
  call g { b with
    pbaMap := fun blk =>
      if blk / g.bps = target then ⟨.lsmBlockEmpty, none⟩ else b.pbaMap blk }
    (.trimSegment target)

/-! ### Summary segments -/

/-- The page that `gc_summary_segment` fills: its address and the out-of-band entries of the
pieces in it. -/
abbrev GcPage := Option (ℕ × List ℕ)

/-- `__gc_issue_write` of a page of summaries. -/
def issueWrite (page : GcPage) : Except Abort L2pBm :=
  match page with
  | none => .ok b
  | some (ppa, oob) =>
      b.call g (.setOob (oob ++ List.replicate (l2pgap - oob.length) 0) ppa)

/-- The page that is being filled, for which `getPpa` gives a new address when there is none. -/
def gcPage (getPpa : L2pBm → Except Abort (ℕ × L2pBm)) :
    GcPage → Except Abort ((ℕ × List ℕ) × L2pBm)
  | some page => .ok (page, b)
  | none => do
      let (ppa, b) ← getPpa b
      return ((ppa, []), b)

/-- A page that is full is written. -/
def endGcPage (page : ℕ × List ℕ) : Except Abort (L2pBm × GcPage) :=
  if page.2.length = l2pgap then do
    let b ← b.issueWrite g (some page)
    return (b, none)
  else
    .ok (b, some page)

/-- One turn of the inner loop of `gc_summary_segment`: a valid piece is moved to the page that
is being filled. -/
def moveSummaryPiece (getPpa : L2pBm → Except Abort (ℕ × L2pBm)) (x : L2pBm × GcPage) (q : ℕ) :
    Except Abort (L2pBm × GcPage) :=
  if x.1.isInvalidPiece q then
    .ok x
  else do
    let b ← x.1.invalidatePiecePpa g q
    let (page, b) ← b.gcPage getPpa x.2
    let b ← b.validatePiecePpa g (page.1 * l2pgap + page.2.length)
    b.endGcPage g (page.1, page.2 ++ [x.1.pool.bm.oob q])

/-- The reserve for summary pages becomes the active summary segment, and there is a new
reserve. -/
def swapSummary : Except Abort L2pBm := do
  let b ← call g { b with nowSummarySeg := b.reserveSummarySeg }
    (.changeReserveToActive b.reserveSummarySeg)
  let (s, b) ← b.getSegment g .reserve
  return { b.setSegType s .summarySeg with reserveSummarySeg := s }

/-- `gc_summary_segment`.  With `toReserve` (`GET_RPPA`) the pieces go to the reserve. -/
def gcSummarySegment (getPpa : L2pBm → Except Abort (ℕ × L2pBm)) (toReserve : Bool)
    (target : ℕ) : Except Abort L2pBm := do
  let pages := (g.pages target).filter b.readFlag
  let (b, page) ← (pages.flatMap pieces).foldlM (moveSummaryPiece g getPpa) (b, none)
  let b ← b.issueWrite g page
  let b ← b.clearBlockAndGsegment g target
  if toReserve then b.swapSummary g else .ok b

/-! ### Data segments -/

/-- The pages of a block. -/
def blockPages (blk : ℕ) : List ℕ := (List.range g.ppb).map (blk * g.ppb + ·)

/-- `__normal_block_valid_check`. -/
def normalBlockValidCheck (blk : ℕ) : Bool := (blockPages g blk).any b.readFlag

/-- `copy_normal_block` for one page: its valid pieces are moved to the same places of a page of
the new block. -/
def copyPage (newPba : ℕ) (b : L2pBm) (ppa : ℕ) : Except Abort L2pBm := do
  let valid := (List.range l2pgap).filter fun j => !b.isInvalidPiece (ppa * l2pgap + j)
  let oob := b.getOob ppa
  let b ← valid.foldlM (fun b j => b.invalidatePiecePpa g (ppa * l2pgap + j)) b
  let newPpa := newPba + ppa % g.ppb
  let b ← b.call g (.setOob oob newPpa)
  valid.foldlM (fun b j => b.validatePiecePpa g (newPpa * l2pgap + j)) b

/-- `copy_normal_block` for one block. -/
def copyNormalBlock (b : L2pBm) (blk : ℕ) : Except Abort L2pBm := do
  let pages := (blockPages g blk).filter b.readFlag
  let (sid, intraIdx) ← orThrow .outOfBounds (b.pbaMap blk).owner
  let (newPba, b) ← b.pickEmptyRpba g
  let b ← b.makeMap g newPba sid intraIdx
  pages.foldlM (copyPage g newPba) b

/-- The reserve for data becomes the data segment, from the first block that is left in it, and
there is a new reserve. -/
def swapData : Except Abort L2pBm := do
  let b ← call g { b with nowSegIdx := some b.reserveSeg, nowBlockIdx := b.reserveBlockIdx }
    (.changeReserveToActive b.reserveSeg)
  let (s, b) ← getSegment g { b with reserveBlockIdx := 0 } .reserve
  return { b.setSegType s .dataSeg with reserveSeg := s }

/-- `gc_data_segment`. -/
def gcDataSegment (target : ℕ) : Except Abort L2pBm := do
  let blks := (List.range g.bps).map (target * g.bps + ·)
  require .emptyBlock (∀ blk ∈ blks, (b.pbaMap blk).type = .lsmBlockNormal)
  let b ← (blks.filter (b.normalBlockValidCheck g)).foldlM (copyNormalBlock g) b
  let b ← b.clearBlockAndGsegment g target
  b.swapData g

/-! ### The garbage collection -/

/-- The loop of `gc` that looks for a victim of the wanted type; the others are parked. -/
def popUntil (type : SegType) :
    ℕ → ℕ → List ℕ → L2pBm → Except Abort (ℕ × List ℕ × L2pBm)
  | 0, _, _, _ => .error .endlessLoop
  | fuel + 1, target, parked, b =>
      if b.segType target = type then
        .ok (target, parked, b)
      else do
        let (next, b) ← b.getGcTarget g
        let next ← orThrow .devFull next
        popUntil type fuel next (parked ++ [target]) b

/-- The parked victims go back to the heap. -/
def insertParked (parked : List ℕ) : Except Abort L2pBm :=
  parked.foldlM (fun b s => b.call g (.insertGcTarget s)) b

/-- The victim is a summary segment whose valid pieces fit into the active one. -/
def fitsActive (type : SegType) (target : ℕ) : Bool :=
  let seg := b.pool.bm.segment target
  type == .dataSeg && b.segType target == .summarySeg && b.nowSummarySeg != target &&
    (seg.validatePieceNum - seg.invalidatePieceNum) / l2pgap
      ≤ g.pps - (b.pool.bm.segment b.nowSummarySeg).usedPageNum

/-- The valid pieces of a victim of the wanted type go to a reserve. -/
def copyVictim (type : SegType) (target : ℕ) : Except Abort L2pBm :=
  match type with
  | .dataSeg => b.gcDataSegment g target
  | _ => b.gcSummarySegment g (getMapRppa g) true target

/-- `gc`, with `relocate` for the victims that fit into the active summary segment. -/
def gcWith (relocate : L2pBm → ℕ → Except Abort L2pBm) (type : SegType) :
    Except Abort (GcResult × L2pBm) := do
  let (target, b) ← b.getGcTarget g
  let target ← orThrow .outOfBounds target
  let seg := b.pool.bm.segment target
  if seg.invalidatePieceNum = seg.validatePieceNum then
    let b ← b.clearBlockAndGsegment g target
    return (.gcTrim, b)
  else if b.fitsActive g type target then
    let b ← relocate b target
    return (.gcDiffSeg, b)
  else
    let (target, parked, b) ← popUntil g type (b.pool.bm.maxHeap.length + 1) target [] b
    let b ← b.copyVictim g type target
    let b ← b.insertParked g parked
    return (.gcCopy, b)

/-- `gc` of type `SUMMARY_SEG`, in which no victim goes to the active summary segment. -/
def gcSummary : Except Abort (GcResult × L2pBm) :=
  b.gcWith g (fun b _ => .ok b) .summarySeg

/-- A new active summary segment. -/
def openSummary : Except Abort L2pBm := do
  let (s, b) ← b.getSegment g .active
  return { b.setSegType s .summarySeg with nowSummarySeg := s }

/-- The active summary segment gets a page: when it is full, there is a new one, after a garbage
collection when no segment is free. -/
def readySummary : Except Abort L2pBm :=
  if b.pool.bm.checkFull g b.nowSummarySeg = false then
    .ok b
  else if b.pool.bm.isGcNeeded then do
    let (res, b) ← b.gcSummary g
    if res = .gcCopy then do
      require .gcNotEffective (b.pool.bm.checkFull g b.nowSummarySeg = false)
      return b
    else
      b.openSummary g
  else
    b.openSummary g

/-- `L2PBm_get_map_ppa`: the next page of the active summary segment. -/
def getMapPpa : Except Abort (ℕ × L2pBm) := do
  let b ← b.readySummary g
  let (ppa, b) ← b.getPageAddr g b.nowSummarySeg
  return (ppa, b.markSummary g ppa)

/-- `gc` of type `DATA_SEG`. -/
def gcData : Except Abort (GcResult × L2pBm) :=
  b.gcWith g (fun b target => b.gcSummarySegment g (getMapPpa g) false target) .dataSeg

/-- A new data segment. -/
def openData : Except Abort L2pBm := do
  let (s, b) ← b.getSegment g .active
  return { b.setSegType s .dataSeg with nowSegIdx := some s, nowBlockIdx := 0 }

/-- There is a data segment that is not full: a new one, after a garbage collection when no
segment is free. -/
def readyData : Except Abort L2pBm :=
  if b.nowSegIdx.isSome then
    .ok b
  else if b.pool.bm.isGcNeeded then do
    let (res, b) ← b.gcData g
    if res = .gcCopy then do
      require .gcNotEffective (b.nowBlockIdx ≠ g.bps)
      return b
    else
      b.openData g
  else
    b.openData g

/-- `L2PBm_pick_empty_PBA`: the next block of the data segment. -/
def pickEmptyPba : Except Abort (ℕ × L2pBm) := do
  let b ← b.readyData g
  let s ← orThrow .outOfBounds b.nowSegIdx
  return (s * g.pps + b.nowBlockIdx * g.ppb,
    { b with
      nowSegIdx := if b.nowBlockIdx + 1 = g.bps then none else some s
      nowBlockIdx := b.nowBlockIdx + 1 })

/-! ### Looking for space -/

/-- The blocks of a victim without valid pieces. -/
def fullInvalidBlocks (target : ℕ) : ℕ :=
  ((List.range g.bps).filter fun i =>
    (b.pool.bm.block (target * g.bps + i)).isFullInvalid).length

/-- What one victim adds to the number of blocks that can be freed: a summary segment that fits
into the active one counts once, a data segment by its blocks.  The flag is `diff_gc`. -/
def freedBy (target : ℕ) (x : ℕ × Bool) : ℕ × Bool :=
  let seg := b.pool.bm.segment target
  if x.2 = false ∧ b.segType target = .summarySeg ∧
      seg.validatePieceNum - seg.invalidatePieceNum
        ≤ g.pps - (b.pool.bm.segment b.nowSummarySeg).usedPageNum then
    (if b.nowSummarySeg ≠ target then x.1 + g.bps else x.1, true)
  else if b.segType target = .dataSeg then
    (x.1 + b.fullInvalidBlocks g target, x.2)
  else
    x

/-- The loop of `gc_check_enough_space` until `wanted` blocks can be freed, and of
`gc_check_free_enable_space`, which wants no number.  All victims it looks at are parked; the
flag tells whether the heap was empty before there were enough. -/
def countFree (wanted : Option ℕ) :
    ℕ → ℕ × Bool → List ℕ → L2pBm → Except Abort (ℕ × Bool × List ℕ × L2pBm)
  | 0, _, _, _ => .error .endlessLoop
  | fuel + 1, x, parked, b =>
      if wanted.any (· ≤ x.1) then
        .ok (x.1, false, parked, b)
      else do
        let (target, b) ← b.getGcTarget g
        match target with
        | none => return (x.1, true, parked, b)
        | some target => countFree wanted fuel (b.freedBy g target x) (parked ++ [target]) b

/-- `L2PBm_get_free_block_num`; the code divides the number of pages by that of the blocks of a
segment. -/
def getFreeBlockNum : ℕ :=
  b.pool.bm.totalFreePageNum g none / g.bps + (g.bps - b.nowBlockIdx)

/-- `gc_check_enough_space`. -/
def gcCheckEnoughSpace (targetPbaNum : ℕ) : Except Abort (Bool × L2pBm) :=
  if targetPbaNum ≤ b.getFreeBlockNum g then
    .ok (true, b)
  else do
    let (_, empty, parked, b) ← countFree g (some targetPbaNum)
      (b.pool.bm.maxHeap.length + 1) (0, false) [] b
    let b ← b.insertParked g parked
    return (!empty, b)

/-- `gc_check_free_enable_space`. -/
def gcCheckFreeEnableSpace : Except Abort (ℕ × L2pBm) := do
  let (num, _, parked, b) ← countFree g none (b.pool.bm.maxHeap.length + 1) (0, false) [] b
  let b ← b.insertParked g parked
  return (num, b)

end L2pBm

/-- The calls that the runs of the tree make: for blocks and pages, for the state of a piece and
for the out-of-band area of a page, and the looks for space. -/
inductive TableOp where
  | pickEmptyPba
  | getMapPpa
  | makeMap (pba sid intraIdx : ℕ)
  | moveOwner (pba sid intraIdx : ℕ)
  | validatePiecePpa (piecePpa : ℕ)
  | invalidatePiecePpa (piecePpa : ℕ) (force : Bool)
  | setOob (lbas : List ℕ) (ppa : ℕ)
  | gcCheckEnoughSpace (targetPbaNum : ℕ)
  | gcCheckFreeEnableSpace
  deriving DecidableEq, Repr

namespace L2pBm

/-- One call. -/
def step (g : Geometry) (b : L2pBm) : TableOp → Except Abort L2pBm
  | .pickEmptyPba => do
      let (_, b) ← b.pickEmptyPba g
      return b
  | .getMapPpa => do
      let (_, b) ← b.getMapPpa g
      return b
  | .makeMap pba sid intraIdx => b.makeMap g pba sid intraIdx
  | .moveOwner pba sid intraIdx => b.moveOwner g pba sid intraIdx
  | .validatePiecePpa q => b.validatePiecePpa g q
  | .invalidatePiecePpa q force =>
      if force then b.invalidatePiecePpa g q else b.call g (.bitUnset q)
  | .setOob lbas ppa => b.call g (.setOob lbas ppa)
  | .gcCheckEnoughSpace n => do
      let (_, b) ← b.gcCheckEnoughSpace g n
      return b
  | .gcCheckFreeEnableSpace => do
      let (_, b) ← b.gcCheckFreeEnableSpace g
      return b

/-- The state after a sequence of calls. -/
def exec (g : Geometry) (victims : List ℕ) (ops : List TableOp) : Except Abort L2pBm :=
  init g victims >>= fun b => run (step g) b ops

end L2pBm

end AppL
