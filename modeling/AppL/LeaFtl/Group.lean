import Mathlib.Data.Finset.Card
import Mathlib.Data.Finset.SDiff
import Mathlib.Logic.Function.Basic
import AppL.Lib.Transition
import AppL.Settings

/-!
# Groups of the learned mapping

A group has the segments of the addresses of one translation page, in levels: the segments of
level 0 do not overlap, and a segment that overlaps a new one leaves level 0.  An accurate
segment has addresses with a constant stride, an approximate one has a `PLR`.  A table has for
every address the segment that was inserted last.
-/

namespace AppL

open Transition

namespace LeaFtl

/-- What segments use of a `PLR`: it is made of pairs of an address and a page, it is asked for
the page of an address, and it has a number of lines. -/
structure Predictor (P : Type) where
  make : List (ℕ × ℕ) → P
  get : P → ℕ → ℕ
  lineCnt : P → ℕ

/-- `SEGMENT_TYPE`. -/
inductive SegmentType
  | accurate
  | approximate
  deriving DecidableEq, Repr

/-- `content`: a stride, or a `PLR` at an address. -/
inductive Content (P : Type)
  | interval (n : ℕ)
  | plr (ptr : ℕ) (p : P)

/-- The member `interval` of the union: of a pointer, it is the lower half. -/
def Content.asInterval {P : Type} : Content P → ℕ
  | interval n => n
  | plr ptr _ => ptr % 2 ^ 32

/-- A `segment`; `type` is told by `body`, and `seq` stands for its address. -/
structure Segment (P : Type) where
  originalStart : ℕ
  start : ℕ
  endLba : ℕ
  startPiecePpa : ℕ
  body : Content P
  levelPtr : Option ℕ
  seq : ℕ

/-- A `temp_map`. -/
structure TempMap where
  lba : List ℕ
  piecePpa : List ℕ
  deriving DecidableEq, Repr

/-- `MAPINTRANS`. -/
def mapInTrans : ℕ := pagesize / 4

section Segments

variable {P : Type} (pr : Predictor P)

namespace Segment

/-- The type of a segment. -/
def type (seg : Segment P) : SegmentType :=
  match seg.body with
  | .interval _ => .accurate
  | .plr _ _ => .approximate

/-- Two segments overlap. -/
def overlaps (a b : Segment P) : Bool := ¬ (a.start > b.endLba ∨ a.endLba < b.start)

end Segment

/-- `segment_make`; a `PLR` is put at `ptr`. -/
def segmentMake (map : TempMap) (type : SegmentType) (interval ptr seq : ℕ) :
    Except Abort (Segment P) := do
  let start ← orThrow .outOfBounds map.lba.head?
  let endLba ← orThrow .outOfBounds map.lba.getLast?
  let startPiecePpa ← orThrow .outOfBounds map.piecePpa.head?
  return {
    originalStart := start
    start := start
    endLba := endLba
    startPiecePpa := startPiecePpa
    body := match type with
      | .accurate => .interval interval
      | .approximate =>
          .plr ptr (pr.make ((map.lba.zip map.piecePpa).map fun q => (q.1 - start, q.2 / l2pgap)))
    levelPtr := none
    seq := seq }

/-- An accurate segment of a map that is not empty. -/
theorem segmentMake_accurate {map : TempMap} {start endLba startPiecePpa : ℕ}
    (hstart : map.lba.head? = some start) (hend : map.lba.getLast? = some endLba)
    (hpiece : map.piecePpa.head? = some startPiecePpa) (interval ptr seq : ℕ) :
  segmentMake pr map .accurate interval ptr seq
    = .ok ⟨start, start, endLba, startPiecePpa, .interval interval, none, seq⟩
  := by
  unfold segmentMake
  rw [hstart, hend, hpiece]
  rfl

/-- `segment_acc_include`. -/
def segmentAccInclude (accSeg : Segment P) (lba : ℕ) : Except Abort Bool := do
  require .segmentType (accSeg.type = .accurate)
  if accSeg.endLba < lba ∨ accSeg.start > lba then
    return false
  else if accSeg.body.asInterval ≠ 0 ∧ (lba - accSeg.start) % accSeg.body.asInterval ≠ 0 then
    return false
  else
    return true

/-- `segment_removable`. -/
def segmentRemovable (oldSeg newSeg : Segment P) : Except Abort Bool := do
  require .segmentType (newSeg.type = .accurate)
  if oldSeg.start ≥ newSeg.start ∧ oldSeg.endLba ≤ newSeg.endLba then
    if oldSeg.body.asInterval = 0 then
      segmentAccInclude newSeg oldSeg.start
    else if oldSeg.body.asInterval = newSeg.body.asInterval
        ∧ (oldSeg.start - newSeg.start) % newSeg.body.asInterval = 0 then
      return true
    else
      return false
  else
    return false

/-- `segment_size`. -/
def segmentSize (seg : Segment P) : ℕ :=
  match seg.body with
  | .interval _ => 8
  | .plr _ p => pr.lineCnt p * 8

/-! ### Levels -/

/-- `std::lower_bound` with `seg_compare`. -/
def lowerBound (lev : List (Segment P)) (seg : Segment P) : ℕ :=
  lev.findIdx fun a => ¬ a.start < seg.start

/-- `level_lower_bound_wrapper`: a position, and `found`. -/
def levelLowerBoundWrapper (lev : List (Segment P)) (seg : Segment P) : ℕ × Bool :=
  match lev.getLast? with
  | none => (lev.length, false)
  | some back =>
      match lev[lowerBound lev seg]? with
      | none =>
          if back.start > seg.endLba ∨ back.endLba < seg.start then
            (lev.length, false)
          else
            (lev.length - 1, true)
      | some a =>
          if a.start > seg.start ∧ lowerBound lev seg ≠ 0 then
            (lowerBound lev seg - 1, true)
          else
            (lowerBound lev seg, true)

/-- `find_overlap`. -/
def findOverlap (lev : List (Segment P)) (seg : Segment P) : List (Segment P) :=
  let (iter, found) := levelLowerBoundWrapper lev seg
  if found then (lev.drop iter).filter fun a => a.overlaps seg else []

/-- A segment is taken out of a level. -/
def eraseSeg (lev : List (Segment P)) (seg : Segment P) : Except Abort (List (Segment P)) := do
  let iter := (levelLowerBoundWrapper lev seg).1
  let a ← orThrow .outOfBounds lev[iter]?
  require .segmentLost (a.seq = seg.seq)
  return lev.eraseIdx iter

/-- `remove_check` of an overlapped segment. -/
def removeCheck (newSeg seg : Segment P) : Except Abort Bool :=
  if newSeg.type = .accurate then segmentRemovable seg newSeg else .ok false

/-- The loop over the overlapped segments: the rest of the level, the segments that go down,
and those that are freed. -/
def removeOverlapped (newSeg : Segment P) : List (Segment P) → List (Segment P) →
    Except Abort (List (Segment P) × List (Segment P) × List ℕ)
  | lev, [] => return (lev, [], [])
  | lev, seg :: overlapped => do
      let remove ← removeCheck newSeg seg
      let lev ← eraseSeg lev seg
      let (lev, godown, freed) ← removeOverlapped newSeg lev overlapped
      if remove then
        return (lev, godown, seg.seq :: freed)
      else
        return (lev, seg :: godown, freed)

/-- A segment is put into a level. -/
def insertSeg (lev : List (Segment P)) (seg : Segment P) : Except Abort (List (Segment P)) := do
  let (iter, found) := levelLowerBoundWrapper lev seg
  if found then
    let a ← orThrow .outOfBounds lev[iter]?
    if a.start < seg.start then
      return lev.insertIdx (iter + 1) seg
    else
      return lev.insertIdx iter seg
  else
    return lev.insertIdx lev.length seg

end Segments

/-! ### Groups -/

/-- A `level`, with its address. -/
structure Level (P : Type) where
  ptr : ℕ
  segs : List (Segment P)

/-- `CACHE_FLAG`. -/
inductive CacheFlag
  | uncached
  | cached
  | flying
  deriving DecidableEq, Repr

/-- A `group`. -/
structure Group (P : Type) where
  levelList : Option (List (Level P))
  mapIdx : ℕ
  segmentNum : ℤ
  size : ℤ
  cacheFlag : CacheFlag
  isclean : Bool

/-- The global variables: `gm`, `master_crb`, the counters, and the calls of `segment_free`
with the segment that was inserted. -/
structure Globals where
  fastSearch : Bool
  segList : ℕ → Option ℕ
  masterCrb : ℕ → Finset ℕ
  nowSegmentNum : ℤ
  lruNowByte : ℤ
  cnt : ℕ
  levelCnt : ℕ
  freed : List (ℕ × ℕ)

section Groups

variable {P : Type} (pr : Predictor P)

/-- The segments of a group. -/
def Group.segs (gp : Group P) : List (Segment P) := (gp.levelList.getD []).flatMap (·.segs)

/-- The addresses of the segments of a group. -/
def Group.live (gp : Group P) : List ℕ := gp.segs.map (·.seq)

/-- `group_level_size`. -/
def groupLevelSize (lev : Level P) : ℕ := (lev.segs.map (segmentSize pr)).sum

namespace Globals

variable (s : Globals)

/-- `SET_SEG_FAST_SEARCH`. -/
def setSegFastSearch (lba : List ℕ) (seg : ℕ) : Globals :=
  if s.fastSearch then
    { s with segList := fun l => if l ∈ lba then some seg else s.segList l }
  else
    s

/-- `crb_insert`, up to its first `return`: no node of the group's own buffer is made. -/
def crbInsert (tmap : TempMap) (groupIdx : ℕ) : Globals :=
  { s with
    masterCrb := Function.update s.masterCrb groupIdx
      (s.masterCrb groupIdx ∪ tmap.lba.toFinset) }

/-- `crb_remove_overlap`, up to its first `return`. -/
def crbRemoveOverlap (tmap : TempMap) (groupIdx : ℕ) : Globals :=
  { s with
    masterCrb := Function.update s.masterCrb groupIdx
      (s.masterCrb groupIdx \ tmap.lba.toFinset) }

/-- The conflict buffer is updated for a new segment.  Neither function gives a node, so that no
segment is changed by `group_update_segment`. -/
def crbUpdate (tmap : TempMap) (groupIdx : ℕ) : SegmentType → Globals
  | .approximate => s.crbInsert tmap groupIdx
  | .accurate => s.crbRemoveOverlap tmap groupIdx

/-- `crb_size`. -/
def crbSize (groupIdx : ℕ) : Except Abort ℕ := do
  require .crbSize ((s.masterCrb groupIdx).card ≤ pagesize / 4)
  return (s.masterCrb groupIdx).card * 4

/-- `lea_cache_size_update`. -/
def leaCacheSizeUpdate (gp : Group P) (size : ℕ) (decrease : Bool) : Except Abort (Globals) := do
  require .notCached (gp.cacheFlag = .cached)
  return { s with lruNowByte := if decrease then s.lruNowByte - size else s.lruNowByte + size }

/-- `group_segment_update`, with the segments that go down. -/
def groupSegmentUpdate (gp : Group P) (lev : Level P) (tmap : TempMap) (newSeg : Segment P) :
    Except Abort (Globals × Level P × List (Segment P)) := do
  let s := s.crbUpdate tmap gp.mapIdx newSeg.type
  let (segs, godown, freed) ← removeOverlapped newSeg lev.segs (findOverlap lev.segs newSeg)
  let segs ← insertSeg segs { newSeg with levelPtr := some lev.ptr }
  return ({ s with freed := s.freed ++ freed.map fun seq => (seq, newSeg.seq) },
    { lev with segs := segs }, godown)

/-- The segments that leave level 0 are the new level 1. -/
def pushDown (gp : Group P) (lev : Level P) (rest : List (Level P)) (godown : List (Segment P)) :
    Except Abort (Globals × Group P) := do
  let new : Level P :=
    { ptr := s.levelCnt, segs := godown.map fun seg => { seg with levelPtr := some s.levelCnt } }
  let newLevelSize := groupLevelSize pr new
  let s ← s.leaCacheSizeUpdate gp newLevelSize false
  return ({ s with
      levelCnt := s.levelCnt + 1
      nowSegmentNum := s.nowSegmentNum + new.segs.length },
    { gp with
      levelList := some (lev :: new :: rest)
      size := gp.size + newLevelSize
      segmentNum := gp.segmentNum + new.segs.length })

/-- Level 0, which is made when it is missing, and the other levels. -/
def firstLevel (gp : Group P) : Globals × Level P × List (Level P) :=
  match gp.levelList with
  | some (lev :: rest) => (s, lev, rest)
  | _ => ({ s with levelCnt := s.levelCnt + 1 }, ⟨s.levelCnt, []⟩, [])

/-- The part of `group_insert` that changes the levels. -/
def insertTarget (gp : Group P) (lev : Level P) (rest : List (Level P)) (tmap : TempMap)
    (target : Segment P) : Except Abort (Globals × Group P) := do
  let crb ← s.crbSize gp.mapIdx
  let size := groupLevelSize pr lev + crb
  let s ← s.leaCacheSizeUpdate gp size true
  let gp := { gp with size := gp.size - size, segmentNum := gp.segmentNum - lev.segs.length }
  let s := { s with nowSegmentNum := s.nowSegmentNum - lev.segs.length }
  let (s, lev, godown) ← s.groupSegmentUpdate gp lev tmap target
  let crb ← s.crbSize gp.mapIdx
  let size := groupLevelSize pr lev + crb
  let s ← s.leaCacheSizeUpdate gp size false
  let gp := { gp with size := gp.size + size, segmentNum := gp.segmentNum + lev.segs.length }
  let s := { s with nowSegmentNum := s.nowSegmentNum + lev.segs.length }
  if godown.length ≠ 0 then
    let (s, gp) ← s.pushDown pr gp lev rest godown
    return (s, { gp with isclean := false })
  else
    return (s, { gp with levelList := some (lev :: rest), isclean := false })

/-- `group_insert`. -/
def groupInsert (gp : Group P) (tmap : TempMap) (type : SegmentType) (interval ptr : ℕ) :
    Except Abort (Globals × Group P) := do
  let target ← segmentMake pr tmap type interval ptr s.cnt
  let s := { s with cnt := s.cnt + 1 }.setSegFastSearch tmap.lba target.seq
  let (s, lev, rest) := s.firstLevel gp
  s.insertTarget pr gp lev rest tmap target

end Globals

/-- `group_get_segment` with the fast search. -/
def groupGetSegment (s : Globals) (gp : Group P) (lba : ℕ) : Option ℕ :=
  match gp.levelList with
  | none => none
  | some _ => s.segList lba

end Groups

end LeaFtl

end AppL
