import AppL.Lsm.SortedTable
import AppL.Lsm.Shortcut

/-!
# Runs

A run collects its entries four at a time in a page buffer, writes every full page to the
block at its write pointer, and closes a block by writing its summary page.  The memtable is
a run of type `RUN_LOG`, which also keeps a tree from an lba to the place of its last entry.

Segments are numbered in the order in which they are handed out.  The garbage collector,
which moves blocks and uses erased segments again, is not part of this model: an address
stands for a block with the contents it has been given.
-/

namespace AppL

open Transition

/-! ### The device -/

/-- The flash device with its block manager and the places of `L2P_bm` that the next data
block and the next summary page come from.  `validated` and `invalidated` count for every
piece how often it has been validated and invalidated; the code has no such counters. -/
structure Dev (δ : Type) where
  bm : BlockManager
  data : ℕ → δ
  freshSeg : ℕ
  nowSegIdx : Option ℕ
  nowBlockIdx : ℕ
  nowSummarySeg : ℕ
  summaryPageNum : ℕ
  validated : ℕ → ℕ
  invalidated : ℕ → ℕ

namespace Dev

variable {δ : Type} (g : Geometry) (dev : Dev δ)

/-- The device after `L2PBm_init`: the first segment takes the summary pages. -/
def init (blank : δ) : Dev δ where
  bm := BlockManager.create g
  data _ := blank
  freshSeg := 1
  nowSegIdx := none
  nowBlockIdx := 0
  nowSummarySeg := 0
  summaryPageNum := 0
  validated _ := 0
  invalidated _ := 0

/-- `L2PBm_pick_empty_PBA`: the address of the next block of the data segment. -/
def pickEmptyPba : ℕ × Dev δ :=
  let seg := dev.nowSegIdx.getD dev.freshSeg
  let block := if dev.nowSegIdx = none then 0 else dev.nowBlockIdx
  (seg * g.pps + block * g.ppb,
    { dev with
      freshSeg := if dev.nowSegIdx = none then dev.freshSeg + 1 else dev.freshSeg
      nowSegIdx := if block + 1 = g.bps then none else some seg
      nowBlockIdx := block + 1 })

/-- `L2PBm_get_map_ppa`: the next page of the summary segment. -/
def getMapPpa : ℕ × Dev δ :=
  if dev.summaryPageNum = g.pps then
    (dev.freshSeg * g.pps,
      { dev with
        freshSeg := dev.freshSeg + 1
        nowSummarySeg := dev.freshSeg
        summaryPageNum := 1 })
  else
    (dev.nowSummarySeg * g.pps + dev.summaryPageNum,
      { dev with summaryPageNum := dev.summaryPageNum + 1 })

/-- `validate_piece_ppa` with `force` set, by a caller that stops with `e`. -/
def validatePiecePpa (e : Abort) (piecePpa : ℕ) : Except Abort (Dev δ) :=
  if (dev.bm.bitSet g piecePpa).1 then
    .ok { dev with
      bm := (dev.bm.bitSet g piecePpa).2
      validated := Function.update dev.validated piecePpa (dev.validated piecePpa + 1) }
  else
    .error e

/-- `invalidate_piece_ppa`, by a caller that stops with `e`. -/
def invalidatePiecePpa (e : Abort) (piecePpa : ℕ) (force : Bool) : Except Abort (Dev δ) :=
  if (dev.bm.bitUnset g piecePpa).1 = false ∧ force = true then
    .error e
  else
    .ok { dev with
      bm := (dev.bm.bitUnset g piecePpa).2
      invalidated :=
        Function.update dev.invalidated piecePpa (dev.invalidated piecePpa + 1) }

/-- `__run_issue_write`: a page and its out-of-band area are written. -/
def issueWrite (ppa : ℕ) (values : List δ) (oob : List ℕ) : Dev δ :=
  { dev with
    bm := dev.bm.setOob oob ppa
    data := fun q =>
      if q / l2pgap = ppa then (values[q % l2pgap]?).getD (dev.data q) else dev.data q }

end Dev

/-! ### The page buffer -/

/-- `pp_buffer`: the buffered sectors, and what is in the `LBA` array behind them. -/
structure PpBuffer (δ : Type) where
  items : List (ℕ × δ)
  filler : ℕ

namespace PpBuffer

variable {δ : Type} (pp : PpBuffer δ)

/-- `pp_init`. -/
def init : PpBuffer δ := ⟨[], 0⟩

/-- `pp_insert_value`. -/
def insertValue (lba : ℕ) (value : δ) : PpBuffer δ :=
  { pp with items := pp.items ++ [(lba, value)] }

/-- The result of `pp_insert_value`: the buffer has a full page. -/
def isFull : Bool := pp.items.length == l2pgap

/-- `pp_find_value`: the first buffered sector with this lba. -/
def findValue (lba : ℕ) : Option δ := (pp.items.find? fun x => x.1 == lba).map (·.2)

/-- `pp_reinit_buffer`: the `LBA` array is set to -1. -/
def reinitBuffer : PpBuffer δ := ⟨[], uint32Max⟩

/-- The `LBA` array. -/
def lbas : List ℕ :=
  pp.items.map (·.1) ++ List.replicate (l2pgap - pp.items.length) pp.filler

end PpBuffer

/-! ### The tree of the memtable -/

/-- The `std::map` of `tree_map`: pairs of an lba and an offset, in the order of the lbas. -/
abbrev TreeMap := List (ℕ × ℕ)

namespace TreeMap

/-- `find` of the map, as `tree_lookup` and `tree_query` use it. -/
def lookup : TreeMap → ℕ → Option ℕ
  | [], _ => none
  | (k, v) :: t, lba => if k = lba then some v else lookup t lba

/-- `tree_insert`: the offset that is replaced, if there is one, and the new map. -/
def insert : TreeMap → ℕ → ℕ → Option ℕ × TreeMap
  | [], lba, offset => (none, [(lba, offset)])
  | (k, v) :: t, lba, offset =>
      if lba < k then
        (none, (lba, offset) :: (k, v) :: t)
      else if lba = k then
        (some v, (k, offset) :: t)
      else
        ((insert t lba offset).1, (k, v) :: (insert t lba offset).2)

end TreeMap

/-! ### Runs -/

/-- The types of runs.  No run of type `RUN_PINNING` is made. -/
inductive RunType where
  | runNormal
  | runLog
  deriving DecidableEq, Repr

/-- `run`; `info` is the index of its `shortcut_info` and `pp` is `none` for a null pointer. -/
structure Run (δ : Type) where
  maxEntryNum : ℕ
  limitEntryNum : ℕ
  nowEntryNum : ℕ
  type : RunType
  info : ℕ
  runLogMf : TreeMap
  pp : Option (PpBuffer δ)
  stBody : StArray

namespace Run

variable {δ : Type} (g : Geometry)

/-- `run_factory`; the table of a log has room for `SC_PER_DIR` entries more. -/
def factory (mapType : MapType) (entryNum : ℕ) (type : RunType) (info : ℕ) : Run δ where
  maxEntryNum := entryNum
  limitEntryNum := entryNum + scPerDir
  nowEntryNum := 0
  type := type
  info := info
  runLogMf := []
  pp := none
  stBody := StArray.init g
    (match type with
      | .runNormal => entryNum
      | .runLog => entryNum + scPerDir) mapType

/-- `run_is_full`. -/
def isFull (r : Run δ) : Bool := r.maxEntryNum ≤ r.nowEntryNum

/-- The insertion of `__run_write_buffer` into the tree of a log, with the new tree; the place
that the lba had before is invalidated. -/
def logInsert (r : Run δ) (dev : Dev δ) (lba intraOffset : ℕ) :
    Except Abort (TreeMap × Dev δ) :=
  match r.type with
  | .runNormal => .ok (r.runLogMf, dev)
  | .runLog => do
      require .overRange (r.runLogMf.length ≤ r.limitEntryNum)
      let x := r.runLogMf.insert lba intraOffset
      match x.1 with
      | none => return (x.2, dev)
      | some old => do
          let dev ← dev.invalidatePiecePpa g .doubleDelete
            (r.stBody.convertGlobalOffsetToPsa g old) true
          return (x.2, dev)

/-- `st_array_set_now_PBA`: the block of the current entry. -/
def setPba (r : Run δ) (pba : ℕ) : Run δ :=
  { r with stBody := { r.stBody with cur := { r.stBody.cur with pba := pba } } }

/-- `st_array_write_translation`: the address of the next piece, in a new block when the one
before is closed. -/
def writeTranslation (r : Run δ) (dev : Dev δ) : Except Abort (ℕ × Run δ × Dev δ) := do
  require .writeSummaryOrder (r.stBody.summaryWriteAlert = false)
  if r.stBody.inblockWritePointer % g.maxSectorInBlock = 0 then
    let pba := (dev.pickEmptyPba g).1
    return (pba * l2pgap + r.stBody.inblockWritePointer, r.setPba pba,
      (dev.pickEmptyPba g).2)
  else
    return (r.stBody.cur.pba * l2pgap + r.stBody.inblockWritePointer, r, dev)

/-- One turn of the loop of `__run_write_buffer`: the next piece of the block is validated
and entered into the tree and the table. -/
def writePiece (r : Run δ) (dev : Dev δ) (lba : ℕ) : Except Abort (ℕ × Run δ × Dev δ) := do
  let intraOffset := r.stBody.globalWritePointer
  let (psa, r, dev) ← r.writeTranslation g dev
  let dev ← dev.validatePiecePpa g .doubleInsert psa
  let (tree, dev) ← r.logInsert g dev lba intraOffset
  let sa ← r.stBody.insertPair g ⟨lba, psa⟩
  return (psa, { r with runLogMf := tree, stBody := sa }, dev)

/-- The loop of `__run_write_buffer`, with the addresses it has assigned. -/
def writePieces : List ℕ → Run δ → Dev δ → Except Abort (List ℕ × Run δ × Dev δ)
  | [], r, dev => .ok ([], r, dev)
  | lba :: lbas, r, dev => do
      let (psa, r, dev) ← writePiece g r dev lba
      let (psas, r, dev) ← writePieces lbas r dev
      return (psa :: psas, r, dev)

/-- `target_ppa` of `__run_write_buffer`: the page of the first piece. -/
def targetPpa : List ℕ → ℕ
  | [] => uint32Max
  | psa :: _ => psa / l2pgap

/-- `__run_write_buffer`: all buffered sectors are assigned, and their page is written. -/
def writeBuffer (r : Run δ) (pp : PpBuffer δ) (dev : Dev δ) :
    Except Abort (Run δ × Dev δ) := do
  let (psas, r, dev) ← writePieces g (pp.items.map (·.1)) r dev
  return (r, dev.issueWrite (targetPpa psas) (pp.items.map (·.2)) pp.lbas)

/-- `__run_write_meta`: the summary page of the current entry is assigned a piece of the page
in `mp_manager`, which is written when it is full or by `force`. -/
def writeMeta (r : Run δ) (dev : Dev δ) (force : Bool) : Except Abort (Run δ × Dev δ) := do
  let sa := r.stBody
  require .outOfBounds (sa.nowSteNum ≤ sa.maxSteNum)
  if sa.writing = false then
    return ({ r with stBody := sa.getRemain }, dev)
  else
    require .notWriteSummaryOrder (sa.summaryWriteAlert = true ∨ force = true)
    let x := if sa.mpNowIdx = 0 then dev.getMapPpa g else (sa.mpNowPpa, dev)
    let piecePpa := x.1 * l2pgap + sa.mpNowIdx
    let dev ← x.2.validatePiecePpa g .mapWrite piecePpa
    let full := force = true ∨ sa.mpNowIdx + 1 = l2pgap
    return ({ r with
      stBody := sa.finishSte piecePpa (if full then uint32Max else x.1)
        (if full then 0 else sa.mpNowIdx + 1) }, dev)

/-- The end of `run_insert`: the summary page of a full block is written. -/
def writeMetaOnAlert (r : Run δ) (dev : Dev δ) : Except Abort (Run δ × Dev δ) :=
  if r.stBody.summaryWriteAlert then r.writeMeta g dev false else .ok (r, dev)

/-- The sector is buffered, and a full page is written. -/
def bufferSector (r : Run δ) (dev : Dev δ) (lba : ℕ) (data : δ) :
    Except Abort (Run δ × Dev δ) :=
  let pp := (r.pp.getD PpBuffer.init).insertValue lba data
  if pp.isFull then do
    let (r, dev) ← r.writeBuffer g pp dev
    return ({ r with pp := some PpBuffer.reinitBuffer }, dev)
  else
    .ok ({ r with pp := some pp }, dev)

/-- The part of `run_insert` after its checks. -/
def insertSector (r : Run δ) (dev : Dev δ) (lba : ℕ) (data : δ) :
    Except Abort (Run δ × Dev δ) := do
  let (r, dev) ← r.bufferSector g dev lba data
  let (r, dev) ← r.writeMetaOnAlert g dev
  return ({ r with nowEntryNum := r.nowEntryNum + 1 }, dev)

/-- `run_insert`.  A log takes the lba over from its owner first, and drops the sector when
the owner is newer. -/
def insert (r : Run δ) (sc : ShortcutMaster) (dev : Dev δ) (lba : ℕ) (data : δ) :
    Except Abort (Run δ × ShortcutMaster × Dev δ) := do
  require .runFull (r.nowEntryNum ≤ r.limitEntryNum)
  match r.type with
  | .runNormal => do
      let (r, dev) ← r.insertSector g dev lba data
      return (r, sc, dev)
  | .runLog => do
      let x := sc.validityCheckAndLink r.info r.info lba
      if x.1 then
        let (r, dev) ← r.insertSector g dev lba data
        return (r, x.2, dev)
      else
        return (r, x.2, dev)

/-- The sectors that are still in the buffer are written, in a page that is not full. -/
def flushBuffer (r : Run δ) (dev : Dev δ) : Except Abort (Run δ × Dev δ) :=
  match r.pp with
  | none => .ok (r, dev)
  | some pp =>
      if pp.items = [] then
        .ok (r, dev)
      else do
        let (r, dev) ← r.writeBuffer g pp dev
        return ({ r with pp := some PpBuffer.reinitBuffer }, dev)

/-- `run_padding_current_block`: the current block is closed. -/
def paddingCurrentBlock (r : Run δ) (dev : Dev δ) : Except Abort (Run δ × Dev δ) := do
  let (r, dev) ← r.flushBuffer g dev
  let (res, sa) ← r.stBody.forceSkipBlock
  if res then
    writeMeta g { r with stBody := sa } dev false
  else
    return ({ r with stBody := sa }, dev)

/-- `run_insert_done`: the buffer and the current block are written and the buffer is
freed. -/
def insertDone (r : Run δ) (dev : Dev δ) : Except Abort (Run δ × Dev δ) := do
  let (r, dev) ← r.flushBuffer g dev
  let (r, dev) ← r.writeMeta g dev true
  return ({ r with pp := none }, dev)

/-- `st_array_free`: the summary pages of the run are invalidated, except those that belong
to another run. -/
def freeSummaries (r : Run δ) (dev : Dev δ) : Except Abort (Dev δ) :=
  (r.stBody.stes.filter fun ste => ste.copied = false).foldlM
    (fun dev ste => dev.invalidatePiecePpa g .invalidateMap ste.piecePpa true) dev

/-- `run_free`: the index of the run and its summary pages are given back. -/
def free (r : Run δ) (sc : ShortcutMaster) (dev : Dev δ) :
    Except Abort (ShortcutMaster × Dev δ) := do
  let dev ← r.freeSummaries g dev
  return (sc.release r.info, dev)

end Run

end AppL
