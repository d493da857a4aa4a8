import Mathlib.Data.List.Sort
import Mathlib.Data.List.SplitBy
import AppL.LeaFtl.Group

/-!
# The mapping of addresses

A buffer of addresses is written to consecutive pages in the order of the addresses, and the
mapping is updated group by group: the old copies are looked up and made invalid, and the
addresses of the group are cut into segments.  A garbage collection writes the valid pieces of
a physical segment anew.  A lookup reads a page when the segment is approximate, and one page
beside it when the address is not there.
-/

namespace AppL

open Transition

namespace LeaFtl

/-! ### Lookups -/

/-- `RETRY_FLAG`. -/
inductive RetryFlag
  | init
  | notRetry
  | normalRetry
  | dataFound
  deriving DecidableEq, Repr

/-- A `group_read_param` of a read of data. -/
structure ReadParam where
  lba : ℕ
  seg : Option ℕ
  retryFlag : RetryFlag
  piecePpa : ℕ
  deriving DecidableEq, Repr

section Lookup

variable {P : Type} (pr : Predictor P)

/-- `segment_get_addr`. -/
def segmentGetAddr (seg : Segment P) (lba : ℕ) : ℕ :=
  match seg.body with
  | .interval n => (lba - seg.originalStart) / (if n ≤ 1 then 1 else n) + seg.startPiecePpa
  | .plr _ p => pr.get p (lba - seg.originalStart) * l2pgap

variable (oob : ℕ → ℕ → ℕ) (gp : Group P)

/-- The end of `group_get` where nothing is found. -/
def ReadParam.notFound (grp : ReadParam) : ReadParam :=
  { grp with piecePpa := uint32Max, retryFlag := .dataFound }

/-- The piece of the retry. -/
def ReadParam.retryPiece (grp : ReadParam) : ℕ :=
  let page := grp.piecePpa / l2pgap
  if grp.lba < oob page 0 then
    if page = 0 then uint32Max else page * l2pgap - 1
  else if grp.lba > oob page (l2pgap - 1) then
    (page + 1) * l2pgap
  else
    grp.piecePpa

/-- `group_get` after the segment has been looked up, and whether a page is to be read. -/
def groupGet (grp : ReadParam) : Except Abort (ReadParam × Bool) :=
  match grp.seg with
  | none => return (grp.notFound, false)
  | some seq =>
      match grp.retryFlag with
      | .init => do
          let seg ← orThrow .outOfBounds (gp.segs.find? fun seg => seg.seq = seq)
          if seg.originalStart = grp.lba then
            return ({ grp with piecePpa := seg.startPiecePpa, retryFlag := .dataFound }, false)
          else
            match seg.type with
            | .accurate =>
                return ({ grp with
                  piecePpa := segmentGetAddr pr seg grp.lba
                  retryFlag := .dataFound }, false)
            | .approximate =>
                return ({ grp with
                  piecePpa := segmentGetAddr pr seg grp.lba
                  retryFlag := .notRetry }, true)
      | .notRetry =>
          return ({ grp with piecePpa := grp.retryPiece oob, retryFlag := .normalRetry }, true)
      | .normalRetry => return (grp.notFound, false)
      | .dataFound => .error .wrongPhase

/-- `group_oob_check`. -/
def groupOobCheck (grp : ReadParam) : Option ℕ :=
  (List.range l2pgap).find? fun i => oob (grp.piecePpa / l2pgap) i = grp.lba

/-- `group_read_end_req` of a read of data. -/
def groupReadEndReq (grp : ReadParam) : ReadParam :=
  match groupOobCheck oob grp with
  | none => grp
  | some setIdx =>
      { grp with
        piecePpa := grp.piecePpa / l2pgap * l2pgap + setIdx
        retryFlag := .dataFound }

/-- Calls of `group_get` until the data is found. -/
def exactLoop : ℕ → ReadParam → Except Abort ℕ
  | 0, _ => .error .endlessLoop
  | fuel + 1, grp => do
      let (grp, issue) ← groupGet pr oob gp grp
      let grp := if issue then groupReadEndReq oob grp else grp
      if grp.retryFlag = .dataFound then
        return grp.piecePpa
      else
        exactLoop fuel grp

/-- `group_get_exact_piece_ppa`, as often as it is called for one address. -/
def groupGetExactPiecePpa (s : Globals) (lba : ℕ) : Except Abort ℕ :=
  exactLoop pr oob gp 3
    { lba := lba, seg := groupGetSegment s gp lba, retryFlag := .init, piecePpa := 0 }

end Lookup

/-! ### Slices -/

/-- A slice of a buffer, as it is handed to `wrapper_group_insert`. -/
structure Slice where
  start : ℕ
  length : ℕ
  isacc : Bool
  interval : ℕ
  deriving DecidableEq, Repr

/-- The variables of `lea_making_segment_per_gp`, and the slices so far. -/
structure Cut where
  appStart : Option ℕ
  appLength : ℕ
  accStart : Option ℕ
  accLength : ℕ
  accInterval : ℕ
  slices : List Slice
  deriving DecidableEq, Repr

namespace Cut

/-- Before the loop. -/
def start : Cut := ⟨none, 0, none, 0, 0, []⟩

variable (c : Cut)

/-- The approximate slice, if there is one. -/
def appSlice : List Slice :=
  match c.appStart with
  | none => []
  | some a => [⟨a, c.appLength, false, uint32Max⟩]

/-- The accurate slice, if there is one. -/
def accSlice : List Slice :=
  match c.accStart with
  | none => []
  | some a => [⟨a, c.accLength, true, c.accInterval⟩]

/-- A short accurate slice becomes a part of the approximate one. -/
def merge : Cut :=
  { c with
    appStart := match c.appStart with
      | none => c.accStart
      | some a => some a
    appLength := c.appLength + c.accLength }

/-- One turn of the loop. -/
def turn (interval : List ℕ) (i : ℕ) : Cut :=
  match c.accStart with
  | none =>
      { c with
        accStart := some (i - 1)
        accLength := 2
        accInterval := interval[i - 1]?.getD 0 }
  | some _ =>
      if c.accInterval = interval[i - 1]?.getD 0 then
        { c with accLength := c.accLength + 1 }
      else
        let c := if c.accLength < 3 then
            c.merge
          else
            { c with
              appStart := none
              appLength := 0
              slices := c.slices ++ c.appSlice ++ c.accSlice }
        { c with accStart := some i, accLength := 1, accInterval := uint32Max }

/-- After the loop. -/
def finish : List Slice :=
  let c := if c.accLength < 3 then { c.merge with accStart := none } else c
  c.slices ++ c.appSlice ++ c.accSlice

end Cut

/-- The calls that `lea_making_segment_per_gp` makes. -/
def leaSlices (interval : List ℕ) (size : ℕ) : List Slice :=
  if size = 1 then
    [⟨0, 1, false, 0⟩]
  else
    ((List.range' 1 (size - 1)).foldl (fun c i => c.turn interval i) Cut.start).finish

/-! ### The device and the groups -/

/-- What has been written at once: addresses, from the first piece of the page `ppa` on. -/
structure Batch where
  lba : List ℕ
  ppa : ℕ
  deriving DecidableEq, Repr

/-- The `temp_map` of what has been written. -/
def Batch.map (b : Batch) : List (ℕ × ℕ) :=
  b.lba.zip (List.range' (b.ppa * l2pgap) b.lba.length)

/-- The state: the globals and the groups, and for the device the validity of the pieces, the
addresses in the OOB of the pages, the pages that have been written since they were erased, and
everything that has been written. -/
structure Ftl (P : Type) where
  globals : Globals
  mainGp : ℕ → Group P
  bits : ℕ → Bool
  oob : ℕ → ℕ → ℕ
  used : ℕ → Bool
  log : List Batch

section Ftl

variable {P : Type} (pr : Predictor P) (alloc : ℕ → ℕ)

namespace Ftl

variable (s : Ftl P)

/-- The piece of an address, or `INITIAL_STATE_PADDR`. -/
def exactPiecePpa (lba : ℕ) : Except Abort ℕ :=
  groupGetExactPiecePpa pr s.oob (s.mainGp (lba / mapInTrans)) s.globals lba

/-- `group_insert`; the `PLR` of the segment `seq` is at `alloc seq`. -/
def insertGroup (g : ℕ) (map : List (ℕ × ℕ)) (type : SegmentType) (interval : ℕ) :
    Except Abort (Ftl P) := do
  let (globals, gp) ← s.globals.groupInsert pr (s.mainGp g) ⟨map.map Prod.fst, map.map Prod.snd⟩ type
    interval (alloc s.globals.cnt)
  return { s with globals := globals, mainGp := Function.update s.mainGp g gp }

/-- `wrapper_group_insert` of a slice. -/
def wrapperGroupInsert (g : ℕ) (map : List (ℕ × ℕ)) (slice : Slice) : Except Abort (Ftl P) :=
  let map := (map.drop slice.start).take slice.length
  match map with
  | [] => .error .outOfBounds
  | [_] => s.insertGroup pr alloc g map .accurate 0
  | [a, b] => s.insertGroup pr alloc g map .accurate (b.1 - a.1)
  | _ =>
      if slice.isacc then do
        require .noInterval (slice.interval ≠ uint32Max)
        s.insertGroup pr alloc g map .accurate slice.interval
      else
        s.insertGroup pr alloc g map .approximate uint32Max

/-- The field `interval` of a `temp_map`. -/
def intervals (map : List (ℕ × ℕ)) : List ℕ :=
  List.zipWith (fun a b => b.1 - a.1) map (map.drop 1)

/-- `lea_making_segment_per_gp`. -/
def leaMakingSegmentPerGp (g : ℕ) (map : List (ℕ × ℕ)) : Except Abort (Ftl P) :=
  (leaSlices (intervals map) map.length).foldlM
    (fun s slice => s.wrapperGroupInsert pr alloc g map slice) s

/-- `lea_mapping_find_exact_piece_ppa` with `invalidate`. -/
def leaMappingFindExactPiecePpa (map : List (ℕ × ℕ)) : Except Abort (Ftl P) :=
  map.foldlM (fun s q => do
    let piecePpa ← s.exactPiecePpa pr q.1
    if piecePpa ≠ uint32Max then
      return { s with bits := Function.update s.bits piecePpa false }
    else
      return s) s

/-- The update of one group. -/
def leaGroupUpdate (isgc : Bool) (map : List (ℕ × ℕ)) : Except Abort (Ftl P) := do
  let q ← orThrow .outOfBounds map.head?
  let s ← if isgc then .ok s else s.leaMappingFindExactPiecePpa pr map
  s.leaMakingSegmentPerGp pr alloc (q.1 / mapInTrans) map

/-- The map of the groups, those that are cached first. -/
def gups (cached : List ℕ) (map : List (ℕ × ℕ)) : List (List (ℕ × ℕ)) :=
  let parts := map.splitBy fun a b => a.1 / mapInTrans = b.1 / mapInTrans
  let isCached (part : List (ℕ × ℕ)) : Bool := part.any fun q => q.1 / mapInTrans ∈ cached
  parts.filter isCached ++ parts.filter fun part => !isCached part

/-- `lea_mapping_update`; the groups are loaded when they are not in the cache. -/
def leaMappingUpdate (cached : List ℕ) (isgc : Bool) (map : List (ℕ × ℕ)) : Except Abort (Ftl P) := do
  require .emptyMap (map ≠ [])
  (gups cached map).foldlM (fun s part => s.leaGroupUpdate pr alloc isgc part) s

/-- `pm_page_flush`. -/
def pmPageFlush (ppa : ℕ) (lba : List ℕ) : Except Abort (Ftl P) := do
  require .writeBeforeErase (s.used ppa = false)
  return { s with
    bits := fun p => if ppa * l2pgap ≤ p ∧ p < ppa * l2pgap + lba.length then true else s.bits p
    oob := fun page i => if page = ppa then lba[i]?.getD (s.oob page i) else s.oob page i
    used := Function.update s.used ppa true }

/-- Addresses are collected in the buffer `buf` until they fill a page; `partly` tells whether
the last page may be written partly. -/
def writeLoop (partly : Bool) :
    Ftl P → ℕ → List ℕ → List ℕ → Except Abort (Ftl P × List (ℕ × ℕ))
  | s, _, _, [] => .ok (s, [])
  | s, ppa, buf, lba :: rest =>
      let buf := buf ++ [lba]
      if buf.length = l2pgap ∨ (partly ∧ rest = []) then do
        let s ← s.pmPageFlush ppa buf
        let (s, map) ← writeLoop partly s (ppa + 1) [] rest
        return (s, buf.zip (List.range' (ppa * l2pgap) buf.length) ++ map)
      else
        writeLoop partly s ppa buf rest

/-- A sorted list of addresses is written to consecutive pages. -/
def write (partly : Bool) (b : Batch) : Except Abort (Ftl P × List (ℕ × ℕ)) := do
  let (s, map) ← writeLoop partly s b.ppa [] b.lba
  require .notSortedSet (map.IsChain fun q r => q.1 ≤ r.1)
  return ({ s with log := s.log ++ [b] }, map)

/-- `lea_write_buffer_flush` of the addresses `lba`, with the update of the mapping. -/
def flush (cached lba : List ℕ) (ppa : ℕ) : Except Abort (Ftl P) := do
  require .notDivided (lba.length % l2pgap = 0)
  let (s, map) ← s.write false ⟨lba, ppa⟩
  s.leaMappingUpdate pr alloc cached false map

variable (geo : Geometry)

/-- The addresses of the valid pieces of a physical segment. -/
def validLbas (target : ℕ) : List ℕ :=
  (List.range' (target * geo.pps * l2pgap) (geo.pps * l2pgap)).filterMap fun p =>
    if s.bits p then some (s.oob (p / l2pgap) (p % l2pgap)) else none

/-- `trim_segment`. -/
def trim (target : ℕ) : Ftl P :=
  { s with
    bits := fun p => if p / l2pgap / geo.pps = target then false else s.bits p
    oob := fun page i => if page / geo.pps = target then 0 else s.oob page i
    used := fun page => if page / geo.pps = target then false else s.used page }

/-- What `pm_data_gc` writes. -/
def gcBatch (target ppa : ℕ) : Batch := ⟨(s.validLbas geo target).insertionSort (· ≤ ·), ppa⟩

/-- `pm_gc` of a physical segment, with the update of the mapping. -/
def gc (cached : List ℕ) (target ppa : ℕ) : Except Abort (Ftl P) := do
  let (s, map) ← s.write true (s.gcBatch geo target ppa)
  let s := s.trim geo target
  if map = [] then
    return s
  else
    s.leaMappingUpdate pr alloc cached true map

end Ftl

/-- The operations. -/
inductive Op
  | flush (cached lba : List ℕ) (ppa : ℕ)
  | gc (cached : List ℕ) (target ppa : ℕ)
  deriving DecidableEq, Repr

variable (geo : Geometry)

/-- What an operation writes. -/
def Ftl.batch (s : Ftl P) : Op → Batch
  | .flush _ lba ppa => ⟨lba, ppa⟩
  | .gc _ target ppa => s.gcBatch geo target ppa

/-- One operation. -/
def Ftl.step (s : Ftl P) : Op → Except Abort (Ftl P)
  | .flush cached lba ppa => s.flush pr alloc cached lba ppa
  | .gc cached target ppa => s.gc pr alloc geo cached target ppa

end Ftl

end LeaFtl

end AppL
