import Mathlib.Data.List.Perm.Basic
import AppL.BlockManager

/-!
# The page-mapping FTL

A model of the page-level translation layer: writes are collected in the align buffer
until they fill a physical page, pages come from the active segment, and a full device is
garbage collected into the reserve segment.  Reads go to the align buffer, to the page
read buffer, or to the device; the device serves a read at any time between its issue and
its completion.
-/

namespace AppL

open Transition

/-- The content of a physical page: the data of its slots, where it is known. -/
abbrev Page (δ : Type) : Type := ℕ → Option δ

/-- A read sent to the device: the lba and the piece address the mapping gave for it. -/
structure ReadReq where
  key : ℕ
  ppa : ℕ
  deriving DecidableEq, Repr

/-- `page_read_buffer`.  An issued request carries what the device has read for it. -/
structure PageReadBuffer (δ : Type) where
  issueReq : List (ReadReq × Option (Page δ))
  pendingReq : List ReadReq
  bufferPpa : Option ℕ
  bufferValue : Page δ

/-- The state of the FTL and of the flash pages, `none` being an erased page. -/
structure PageFtl (δ : Type) where
  bm : BlockManager
  flash : ℕ → Option (Page δ)
  mapping : ℕ → Option ℕ
  reserve : ℕ
  active : ℕ
  aBuffer : List (ℕ × δ)
  rb : PageReadBuffer δ

/-- `align_gc_buffer`: the pieces collected so far, and what its page holds from before in
the slots after them. -/
structure AlignGcBuffer (δ : Type) where
  items : List (ℕ × Option δ)
  left : Page δ

/-- The page of a gc buffer, as it is sent to the device. -/
def AlignGcBuffer.value {δ : Type} (b : AlignGcBuffer δ) : Page δ :=
  fun i => match b.items[i]? with
    | some x => x.2
    | none => b.left i

namespace PageFtl

variable {δ : Type} (g : Geometry)

/-- `page_create` on an erased device. -/
def create : Except Abort (PageFtl δ) := do
  let (reserve, bm) ← (BlockManager.create g).getSegReserve
  let (active, bm) ← bm.getSegActive
  return {
    bm := bm
    flash := fun _ => none
    mapping := fun _ => none
    reserve := reserve
    active := active
    aBuffer := []
    rb := ⟨[], [], none, fun _ => none⟩ }

/-! ### Mapping and device -/

/-- The mapping with one lba set to a piece of page `ppa`. -/
def mapPiece (ppa : ℕ) (m : ℕ → Option ℕ) (x : ℕ × ℕ) : ℕ → Option ℕ :=
  Function.update m x.1 (some (ppa * l2pgap + x.2))

/-- The mapping after the lbas of a page are set to its pieces. -/
def setMapping (m : ℕ → Option ℕ) (ppa : ℕ) (lbas : List ℕ) : ℕ → Option ℕ :=
  lbas.zipIdx.foldl (mapPiece ppa) m

/-- `validate_ppa`: the first pieces of the page become valid and their lbas are written to
the out-of-band area. -/
def validatePpa (s : PageFtl δ) (ppa : ℕ) (lbas : List ℕ) : PageFtl δ :=
  let bm := (List.range lbas.length).foldl
    (fun bm i => (bm.bitSet g (ppa * l2pgap + i)).2) s.bm
  { s with bm := bm.setOob lbas ppa }

/-- The device writes a page, which must be erased. -/
def program (s : PageFtl δ) (ppa : ℕ) (v : Page δ) : Except Abort (PageFtl δ) := do
  require .writeBeforeErase (s.flash ppa = none)
  return { s with flash := Function.update s.flash ppa (some v) }

/-! ### Garbage collection -/

/-- `page_map_gc_update`: a page of the reserve segment for the lbas.  A full reserve has no
address to give. -/
def pageMapGcUpdate (s : PageFtl δ) (lbas : List ℕ) : Except Abort (ℕ × PageFtl δ) := do
  let (res, bm) ← s.bm.getPageAddr g s.reserve
  let res ← orThrow .pageAddr res
  return (res, { s with bm := bm, mapping := setMapping s.mapping res lbas })

/-- The gc buffer is written to a page of the reserve segment. -/
def gcWrite (s : PageFtl δ) (b : AlignGcBuffer δ) :
    Except Abort (PageFtl δ × AlignGcBuffer δ) := do
  let lbas := b.items.map Prod.fst
  let (res, s) ← pageMapGcUpdate g s lbas
  let s ← (validatePpa g s res lbas).program res b.value
  return (s, ⟨[], b.value⟩)

/-- Slot `i` of a page that garbage collection has read. -/
def gcPiece (ppa : ℕ) (v : Page δ) (x : PageFtl δ × AlignGcBuffer δ) (i : ℕ) :
    Except Abort (PageFtl δ × AlignGcBuffer δ) :=
  let q := ppa * l2pgap + i
  if x.1.bm.bitset q then
    let b := { x.2 with items := x.2.items ++ [(x.1.bm.oob q, v i)] }
    if b.items.length = l2pgap then gcWrite g x.1 b else .ok (x.1, b)
  else
    .ok x

/-- The order in which the reads of a garbage collection complete: any order of the pages
it reads. -/
def readOrder (order pages : List ℕ) : List ℕ :=
  if order.Perm pages then order else pages

/-- The pages of the victim that hold a valid piece. -/
def readPages (s : PageFtl δ) (target : ℕ) : List ℕ :=
  (g.pages target).filter
    (fun p => (List.range l2pgap).any (fun i => s.bm.bitset (p * l2pgap + i)))

/-- `__mh_get_cnt` of a build without `layeredLSM`. -/
def mhGetCnt (s : Segment) : ℤ := s.invalidatePieceNum

/-- The end of a garbage collection: the victim is erased and the reserve becomes the
active segment. -/
def gcFinish (s : PageFtl δ) (target : ℕ) : Except Abort (PageFtl δ) := do
  let bm := (s.bm.trimSegment g target).changeReserveToActive s.reserve
  let (reserve, bm) ← bm.getSegReserve
  return { s with
    bm := bm
    flash := fun p => if p / g.pps = target then none else s.flash p
    active := s.reserve
    reserve := reserve }

/-- The last write of a garbage collection, of the pieces left in the gc buffer. -/
def gcWriteLast (s : PageFtl δ) (b : AlignGcBuffer δ) :
    Except Abort (PageFtl δ × AlignGcBuffer δ) :=
  if b.items = [] then .ok (s, b) else gcWrite g s b

/-- `do_gc` of the segment `target`, whose page reads complete in the given order. -/
def doGc (s : PageFtl δ) (target : ℕ) (order : List ℕ) : Except Abort (PageFtl δ) := do
  let bm ← s.bm.getGcTarget g mhGetCnt target
  let s := { s with bm := bm }
  let reads ← (readOrder order (readPages g s target)).mapM
    (fun p => do return (p, ← orThrow .notPopulated (s.flash p)))
  let (s, b) ← reads.foldlM
    (fun x r => (List.range l2pgap).foldlM (gcPiece g r.1 r.2) x) (s, ⟨[], fun _ => none⟩)
  let (s, _) ← gcWriteLast g s b
  gcFinish g s target

/-! ### Writes -/

/-- The loop of `get_ppa` that takes free segments until the active one has a page. -/
def retry : ℕ → PageFtl δ → Except Abort (ℕ × PageFtl δ)
  | 0, _ => .error .noFreeSegment
  | n + 1, s => do
      let (res, bm) ← s.bm.getPageAddr g s.active
      match res with
      | some res => return (res, { s with bm := bm })
      | none =>
          let (active, bm) ← bm.getSegActive
          retry n { s with bm := bm, active := active }

/-- `get_ppa` starts a garbage collection when the active segment is full and no segment is
free. -/
def gcIfNeeded (s : PageFtl δ) (target : ℕ) (order : List ℕ) : Except Abort (PageFtl δ) :=
  if s.bm.checkFull g s.active && s.bm.isGcNeeded then doGc g s target order else .ok s

/-- `get_ppa`: a page for the lbas, after a garbage collection when the device is full. -/
def getPpa (s : PageFtl δ) (lbas : List ℕ) (target : ℕ) (order : List ℕ) :
    Except Abort (ℕ × PageFtl δ) := do
  let s ← gcIfNeeded g s target order
  let (res, s) ← retry g (s.bm.freeSegmentQ.length + 1) s
  return (res, validatePpa g s res lbas)

/-- One turn of the loop of `page_map_assign`. -/
def assignPiece (res : ℕ) (s : PageFtl δ) (x : ℕ × ℕ) : PageFtl δ :=
  let bm := match s.mapping x.1 with
    | some q => (s.bm.bitUnset g q).2
    | none => s.bm
  { s with bm := bm, mapping := mapPiece res s.mapping x }

/-- `page_map_assign`: the lbas of a page get a new page, their old pieces become invalid. -/
def pageMapAssign (s : PageFtl δ) (lbas : List ℕ) (target : ℕ) (order : List ℕ) :
    Except Abort (ℕ × PageFtl δ) := do
  let (res, s) ← getPpa g s lbas target order
  return (res, lbas.zipIdx.foldl (assignPiece g res) s)

/-- The align buffer with the data of `key` in it: in the place of an older entry of the
same lba, or at the end. -/
def align (buf : List (ℕ × δ)) (key : ℕ) (data : δ) : List (ℕ × δ) :=
  if key ∈ buf.map Prod.fst then
    buf.map (fun x => if x.1 = key then (key, data) else x)
  else
    buf ++ [(key, data)]

/-- `page_write` and `align_buffering`: a full align buffer goes to a new page. -/
def pageWrite (s : PageFtl δ) (key : ℕ) (data : δ) (target : ℕ) (order : List ℕ) :
    Except Abort (PageFtl δ) := do
  let buf := align s.aBuffer key data
  if buf.length = l2pgap then
    let (ppa, s) ← pageMapAssign g s (buf.map Prod.fst) target order
    let s ← s.program ppa (fun i => (buf[i]?).map Prod.snd)
    return { s with aBuffer := [] }
  else
    return { s with aBuffer := buf }

/-! ### Reads -/

/-- How `page_read` answers a read. -/
inductive Answer (δ : Type) where
  /-- from the align buffer -/
  | aligned (v : δ)
  /-- `FS_NOTFOUND_T` -/
  | notFound
  /-- from the page read buffer -/
  | bufferHit (v : Option δ)
  /-- sent to the device -/
  | issued
  /-- added to the requests that wait for a read of the same page -/
  | pending
  deriving DecidableEq, Repr

/-- `page_read` and the read part of `send_user_req`. -/
def pageRead (s : PageFtl δ) (key : ℕ) : Answer δ × PageFtl δ :=
  match s.aBuffer.find? (fun x => x.1 = key) with
  | some x => (.aligned x.2, s)
  | none =>
      match s.mapping key with
      | none => (.notFound, s)
      | some q =>
          if s.rb.bufferPpa = some (q / l2pgap) then
            (.bufferHit (s.rb.bufferValue (q % l2pgap)), s)
          else if s.rb.issueReq.any (fun x => x.1.ppa / l2pgap = q / l2pgap) then
            (.pending,
              { s with rb := { s.rb with pendingReq := s.rb.pendingReq ++ [⟨key, q⟩] } })
          else
            (.issued,
              { s with rb := { s.rb with issueReq := s.rb.issueReq ++ [(⟨key, q⟩, none)] } })

/-- The device reads the page of an issued request. -/
def serve (s : PageFtl δ) (ppa : ℕ) : Except Abort (PageFtl δ) := do
  let v ← orThrow .notPopulated (s.flash ppa)
  return { s with rb := { s.rb with
    issueReq := s.rb.issueReq.map
      (fun x => if x.1.ppa / l2pgap = ppa then (x.1, some v) else x) } }

/-- `page_end_req` of a read of page `ppa`: the requests that wait for it are answered from
the same value, and the page goes to the read buffer. -/
def pageEndReq (s : PageFtl δ) (ppa : ℕ) : Except Abort (PageFtl δ) := do
  let x ← orThrow .noRequest (s.rb.issueReq.find? (fun x => x.1.ppa / l2pgap = ppa))
  let v ← orThrow .noRequest x.2
  return { s with rb := {
    issueReq := s.rb.issueReq.filter (fun x => x.1.ppa / l2pgap ≠ ppa)
    pendingReq := s.rb.pendingReq.filter (fun r => r.ppa / l2pgap ≠ ppa)
    bufferPpa := some ppa
    bufferValue := v } }

/-! ### Operations -/

/-- The operations of the FTL and of the device.  A write names the victim that a garbage
collection would take and the order in which its reads would complete. -/
inductive Op (δ : Type) where
  | write (key : ℕ) (data : δ) (target : ℕ) (order : List ℕ)
  | read (key : ℕ)
  | serve (ppa : ℕ)
  | endReq (ppa : ℕ)
  | remove (key : ℕ)

/-- One operation; `page_remove` ends its request and does nothing else. -/
def step (s : PageFtl δ) : Op δ → Except Abort (PageFtl δ)
  | .write key data target order => pageWrite g s key data target order
  | .read key => .ok (pageRead s key).2
  | .serve ppa => serve s ppa
  | .endReq ppa => pageEndReq s ppa
  | .remove _ => .ok s

/-- The data of the last write of an lba in a history of operations. -/
def lastWritten (ops : List (Op δ)) (lba : ℕ) : Option δ :=
  ops.foldl (fun acc op => match op with
    | .write key data _ _ => if key = lba then some data else acc
    | _ => acc) none

end PageFtl

end AppL
