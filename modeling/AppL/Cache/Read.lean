import AppL.Cache.Layer

/-!
# User reads

A read that the memtable does not answer asks for the shortcut page of its lba, for the index
of the run that owns the lba, and for the data.  When a page is not cached the read waits for
it: the first read of a page reads it from flash, and the others are kept in a list that the
first one takes up when it comes back.
-/

namespace AppL

open Transition

/-- What `run_query` does: the data is in a buffer, its page is read, or it is not found. -/
inductive Query where
  | buffered
  | issued
  | notFound
  deriving DecidableEq, Repr

/-- The rest of the tree as a read sees it: what the memtable answers (`memtable`), the run
that owns an lba (`shortcut_query`), the address and the size of the index for an lba in a run
(`run_pick_target_mf`), and what a run answers (`run_query`). -/
structure Tree where
  memtable : ℕ → Query
  owner : ℕ → Option ℕ
  targetMf : ℕ → ℕ → ℕ × ℕ
  query : ℕ → ℕ → Query

/-- The flag of a request that waits, with the parameter of an index read. -/
inductive ReqFlag where
  | init
  | sc
  | map (pba size : ℕ)
  | data
  deriving DecidableEq, Repr

/-- How a read ends. -/
inductive EndType where
  | data
  | notFound
  deriving DecidableEq, Repr

/-- The state of the reads.  `issued` has the requests so far and `promised` those of lbas
that had been written then; `dataReading` has the requests whose data is being read, and
`ends` the calls of `end_req`. -/
structure Reads where
  c : CacheLayer
  tree : Tree
  written : ℕ → Bool
  key : ℕ → ℕ
  flag : ℕ → ReqFlag
  issued : List ℕ
  promised : List ℕ
  dataReading : List ℕ
  ends : List (ℕ × EndType)

namespace Reads

variable (g : Geometry) (s : Reads)

/-- `req->end_req`. -/
def endReq (req : ℕ) (type : EndType) : Reads := { s with ends := s.ends ++ [(req, type)] }

/-- The flag of a request is set. -/
def setFlag (req : ℕ) (flag : ReqFlag) : Reads :=
  { s with flag := Function.update s.flag req flag }

/-- `run_query` with answer `q`, and whether the data is found. -/
def runQuery (req : ℕ) : Query → Bool × Reads
  | .buffered => (true, s.endReq req .data)
  | .issued => (true, { s.setFlag req .data with dataReading := s.dataReading ++ [req] })
  | .notFound => (false, s)

/-- The index of run `r` is asked for, and the data if the index is cached. -/
def askIdx (req r : ℕ) : Except Abort (Bool × Reads) := do
  let (pba, size) := s.tree.targetMf r (s.key req)
  let (hit, c) ← CacheLayer.idxRead g s.c pba size req
  let s : Reads := { s with c := c }
  if hit = true then
    return s.runQuery req (s.tree.query r (s.key req))
  else
    return (true, s.setFlag req (.map pba size))

/-- The part of `lsmtree_read` for a new request that the memtable does not answer.  What
`run_query` answers here is not looked at, and neither is `isdone` of the lookup. -/
def readMiss (req : ℕ) : Except Abort Reads := do
  let (res, c) ← CacheLayer.scRead g s.c (s.key req) (some req) true
  let s : Reads := { s with c := c }
  match res with
  | .hit =>
      match s.tree.owner (s.key req) with
      | none => return s.endReq req .notFound
      | some r => do
          let (_, s) ← s.askIdx g req r
          return s
  | .waiting => return s.setFlag req .sc
  | _ => return s.endReq req .notFound

/-- `lsmtree_read` of a new request. -/
def read (req lba : ℕ) : Except Abort Reads := do
  require .wrongPhase (req ∉ s.issued)
  let s : Reads := { s with
    issued := req :: s.issued
    promised := if s.written lba = true then req :: s.promised else s.promised
    key := Function.update s.key req lba
    flag := Function.update s.flag req .init }
  match s.tree.memtable lba with
  | .notFound => s.readMiss g req
  | q => return (s.runQuery req q).2

/-- `lsmtree_pending_sc`: the shortcut page has been read. -/
def pendingSc (req : ℕ) : Except Abort (Bool × Reads) := do
  let c ← CacheLayer.scRetry g s.c (s.key req)
  let s : Reads := { s with c := c }
  match s.tree.owner (s.key req) with
  | none => return (false, s.endReq req .notFound)
  | some r => s.askIdx g req r

/-- `lsmtree_pending_idx`: the index has been read. -/
def pendingIdx (req : ℕ) : Except Abort (Bool × Reads) :=
  match s.flag req with
  | .map pba size => do
      let c ← CacheLayer.idxRetry g s.c pba size
      let s : Reads := { s with c := c }
      let r ← orThrow .outOfBounds (s.tree.owner (s.key req))
      return s.runQuery req (s.tree.query r (s.key req))
  | _ => .error .wrongPhase

/-- The requests that have waited for a page are taken up. -/
def takeUp (pending : Reads → ℕ → Except Abort (Bool × Reads)) :
    Reads → List ℕ → Except Abort Reads
  | s, [] => .ok s
  | s, req :: l => do
      let (_, s) ← pending s req
      takeUp pending s l

/-- The requests that wait for a page are taken from their list. -/
def getPendingReq (type : CacheType) (id : ℕ) : Except Abort (List ℕ × Reads) := do
  let (rs, c) ← s.c.getPendingReq type id
  return (rs, { s with c := c })

/-- `lsmtree_read` of a request that comes back from the read of a page. -/
def retry (req : ℕ) : Except Abort Reads := do
  require .wrongPhase (req ∈ s.c.pcs.reading)
  let s : Reads := { s with c := { s.c with
    pcs := { s.c.pcs with reading := s.c.pcs.reading.erase req } } }
  match s.flag req with
  | .sc => do
      let (rs, s) ← s.getPendingReq .shortcut (s.key req / ridxinpage)
      let (_, s) ← s.pendingSc g req
      takeUp (pendingSc g) s rs
  | .map pba _ => do
      let (rs, s) ← s.getPendingReq .idx pba
      let (res, s) ← s.pendingIdx g req
      let s ← takeUp (pendingIdx g) s rs
      return if res = true then s else s.endReq req .notFound
  | _ => .error .wrongPhase

/-- The data of a request has been read. -/
def dataDone (req : ℕ) : Except Abort Reads := do
  require .wrongPhase (req ∈ s.dataReading)
  return { s.endReq req .data with dataReading := s.dataReading.erase req }

/-- The operations of a compaction on the cache. -/
def isCompaction : CacheLayer.Op → Bool
  | .scUpdate _ _ => true
  | .idxInsert _ _ => true
  | .idxForceEvict _ => true
  | _ => false

/-- What happens: a new read, the end of the read of a page or of data, a write of an lba, and
a compaction. -/
inductive Op where
  | read (req lba : ℕ)
  | retry (req : ℕ)
  | dataDone (req : ℕ)
  | write (lba : ℕ) (tree : Tree)
  | compaction (ops : List CacheLayer.Op) (tree : Tree)

/-- One event. -/
def step : Op → Except Abort Reads
  | .read req lba => s.read g req lba
  | .retry req => s.retry g req
  | .dataDone req => s.dataDone req
  | .write lba tree =>
      .ok { s with tree := tree, written := Function.update s.written lba true }
  | .compaction ops tree => do
      require .wrongPhase (ops.all isCompaction = true)
      let c ← run (CacheLayer.apply g) s.c ops
      return { s with c := c, tree := tree }

/-- Before the first write. -/
def init (maxCachedSize lbaNum : ℕ) (scPinning : Bool) (scSeg : ℕ) (tree : Tree) : Reads where
  c := CacheLayer.init g maxCachedSize lbaNum scPinning scSeg
  tree := tree
  written _ := false
  key _ := 0
  flag _ := .init
  issued := []
  promised := []
  dataReading := []
  ends := []

end Reads

end AppL
