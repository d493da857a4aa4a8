import AppL.Lsm.Merge

/-!
# The LSM tree

Writes go to the memtable.  A full memtable is merged into a new run of the first level, and
as long as a level is full its runs are merged into one run of the next level; in the last
level two runs are merged into one.  When space is short, a run of the last level is
rebuilt.  One call of `lsmtree_insert` is a sequence of steps, each with at most one merge.
-/

namespace AppL

open Transition

/-- `lsmtree_parameter`, and `RANGE`, the number of lbas. -/
structure Param where
  cacheFlag : Bool
  memtableEntryNum : ℕ
  sizeFactor : ℕ
  totalLevelNum : ℕ
  totalRunNum : ℕ
  spareRunNum : ℕ
  bfLevelStart : ℕ
  bfLevelEnd : ℕ
  range : ℕ
  deriving DecidableEq, Repr

/-- `level`, with its runs from the newest to the oldest (`recency_pointer`). -/
structure Level (δ : Type) where
  maxRunNum : ℕ
  mapType : MapType
  runs : List (Run δ)

namespace Level

variable {δ : Type} (lev : Level δ)

/-- `level_is_full`. -/
def isFull : Bool := lev.maxRunNum ≤ lev.runs.length

/-- `level_insert_run`. -/
def insertRun (r : Run δ) : Except Abort (Level δ) := do
  require .levelFull (lev.isFull = false)
  return { lev with runs := r :: lev.runs }

end Level

/-- Where `lsmtree_insert` is: before or after an insertion, in the loop of
`__compaction_another_level` at a level, or in the loop of `compaction_flush` that rebuilds
runs of the last level. -/
inductive Phase where
  | idle
  | compacting (diskIdx : ℕ)
  | forcing
  deriving DecidableEq, Repr

/-- `lsmtree`.  In the phases of a compaction `memtable` is the run that has been merged and
is not freed yet.  `lost` has the runs that no level holds any more although they are not
freed.  `freed` is a record of the indices that were given back, each with the lbas that
were still mapped to it; the code has no such record. -/
structure Lsmtree (δ : Type) where
  param : Param
  sc : ShortcutMaster
  dev : Dev δ
  memtable : Run δ
  disk : List (Level δ)
  lost : List (Run δ)
  phase : Phase
  freed : List (ℕ × List ℕ)

/-- The steps of the tree.  The runs that a compaction of the last level merges, and the run
that is rebuilt, are given by their positions in the level. -/
inductive LsmOp (δ : Type) where
  | write (lba : ℕ) (data : δ)
  | flush
  | compact (first second : ℕ)
  | force (pos : ℕ)
  | finish
  | cleanLastLevel (pos : ℕ)

namespace Lsmtree

variable {δ : Type} (g : Geometry) (lsm : Lsmtree δ)

/-- The mapping function of the runs of a level. -/
def levelMapType (p : Param) (i : ℕ) : MapType :=
  if p.bfLevelEnd - 1 < i then .plrMap else .guardBf

/-- The mapping function that `run_factory` takes for a normal run. -/
def normalMapType (p : Param) (mapType : MapType) : MapType :=
  if mapType = .plrMap ∧ p.cacheFlag = true then .compMap else mapType

/-- `__lsm_populate_new_run` of a normal run. -/
def populateNormal (p : Param) (sc : ShortcutMaster) (mapType : MapType)
    (entryNum levelNum : ℕ) : Except Abort (Run δ × ShortcutMaster) := do
  let (idx, sc) ← sc.addRun levelNum
  return (Run.factory g (normalMapType p mapType) entryNum .runNormal idx, sc)

/-- `__lsm_populate_new_run` of a memtable. -/
def populateLog (p : Param) (sc : ShortcutMaster) (entryNum : ℕ) :
    Except Abort (Run δ × ShortcutMaster) := do
  let (idx, sc) ← sc.addRun 0
  let mapType := if p.bfLevelStart = 1 then MapType.guardBf else MapType.plrMap
  return (Run.factory g mapType entryNum .runLog idx, sc)

/-- The size of the first memtable: at most a segment, or whole segments. -/
def firstEntryNum (p : Param) : ℕ :=
  if p.memtableEntryNum < g.pps * l2pgap then
    p.memtableEntryNum
  else
    p.memtableEntryNum / (g.pps * l2pgap) * (g.pps * l2pgap)

/-- `lsmtree_init`. -/
def init (p : Param) (blank : δ) : Except Abort (Lsmtree δ) := do
  let sc := ShortcutMaster.init (p.totalRunNum + p.spareRunNum)
  let (memtable, sc) ← populateLog g p sc (firstEntryNum g p)
  return {
    param := p
    sc := sc
    dev := Dev.init g blank
    memtable := memtable
    disk := (List.range p.totalLevelNum).map fun i =>
      { maxRunNum :=
          if i = p.totalLevelNum - 1 then p.sizeFactor + (p.spareRunNum - 2)
          else p.sizeFactor
        mapType := levelMapType p i
        runs := [] }
    lost := []
    phase := .idle
    freed := [] }

/-- `__lsm_free_run`. -/
def freeRun (r : Run δ) : Except Abort (Lsmtree δ) := do
  let (sc, dev) ← r.free g lsm.sc lsm.dev
  let left := (List.range lsm.param.range).filter fun lba => lsm.sc.scMap lba = some r.info
  return { lsm with sc := sc, dev := dev, freed := lsm.freed ++ [(r.info, left)] }

/-- `lsmtree_insert` when the memtable is not full. -/
def write (lba : ℕ) (data : δ) : Except Abort (Lsmtree δ) := do
  require .wrongPhase (lsm.phase = .idle ∧ lsm.memtable.isFull = false)
  require .outOfBounds (lba < lsm.param.range)
  let (r, sc, dev) ← lsm.memtable.insert g lsm.sc lsm.dev lba data
  return { lsm with memtable := r, sc := sc, dev := dev }

/-- `lsmtree_insert` when the memtable is full, and the first part of `compaction_flush`:
the memtable is merged into a new run of the first level. -/
def flush : Except Abort (Lsmtree δ) := do
  require .wrongPhase (lsm.phase = .idle ∧ lsm.memtable.isFull = true)
  let lev ← orThrow .outOfBounds lsm.disk[0]?
  let (r, dev) ← lsm.memtable.insertDone g lsm.dev
  let (target, sc) ← populateNormal g lsm.param lsm.sc lev.mapType r.nowEntryNum 1
  let st ← runMerge g [r] target false sc dev
  let lev ← lev.insertRun st.res
  return { lsm with
    memtable := (st.mms.map (·.r)).headD r
    sc := st.sc
    dev := st.dev
    disk := lsm.disk.set 0 lev
    phase := .compacting 0 }

/-- `level_get_compaction_target`: the runs that are merged, from the newest to the oldest,
and the runs that stay. -/
def compactionTarget (runs : List (Run δ)) (last : Bool) (first second : ℕ) :
    Except Abort (List (Run δ) × List (Run δ)) :=
  if last = false ∨ runs.length = 2 then
    .ok (runs, [])
  else
    match runs[first]?, runs[second]? with
    | some r₁, some r₂ =>
        if first < second then
          .ok ([r₁, r₂], (runs.eraseIdx second).eraseIdx first)
        else
          .error .wrongPhase
    | _, _ => .error .outOfBounds

/-- One turn of the loop of `__compaction_another_level`.  When as many runs stay in the last
level as are merged, those that stay are not inserted into the new level. -/
def compactLevel (diskIdx first second : ℕ) (lev : Level δ) : Except Abort (Lsmtree δ) := do
  let last := diskIdx == lsm.param.totalLevelNum - 1
  let desIdx := if last then diskIdx else diskIdx + 1
  let desLev ← orThrow .outOfBounds lsm.disk[desIdx]?
  let (srcs, rest) ← compactionTarget lev.runs last first second
  let entryNum := (srcs.map (·.nowEntryNum)).sum
  let (target, sc) ← populateNormal g lsm.param lsm.sc desLev.mapType entryNum (desIdx + 1)
  let st ← runMerge g srcs target false sc lsm.dev
  let keep := if srcs.length = rest.length then [] else rest
  let newLev := { lev with runs := keep }
  let desLev ← (if last then newLev else desLev).insertRun st.res
  let lsm := { lsm with
    sc := st.sc
    dev := st.dev
    lost := (if srcs.length = rest.length then rest else []) ++ lsm.lost
    disk := (lsm.disk.set diskIdx newLev).set desIdx desLev
    phase := if last then .forcing else .compacting (diskIdx + 1) }
  (st.mms.map (·.r)).foldlM (freeRun g) lsm

/-- A step of `__compaction_another_level`, which ends at a level that is not full. -/
def compact (first second : ℕ) : Except Abort (Lsmtree δ) :=
  match lsm.phase with
  | .compacting diskIdx => do
      let lev ← orThrow .outOfBounds lsm.disk[diskIdx]?
      if lev.isFull then
        compactLevel g lsm diskIdx first second lev
      else
        return { lsm with phase := .forcing }
  | _ => .error .wrongPhase

/-- The rebuild of a run of the last level, in `compaction_flush` and in
`compaction_clean_last_level`. -/
def rebuild (pos : ℕ) : Except Abort (Lsmtree δ) := do
  let lastIdx := lsm.param.totalLevelNum - 1
  let lev ← orThrow .outOfBounds lsm.disk[lastIdx]?
  let src ← orThrow .outOfBounds lev.runs[pos]?
  let (target, sc) ← populateNormal g lsm.param lsm.sc lev.mapType src.nowEntryNum lastIdx
  let st ← runMerge g [src] target true sc lsm.dev
  let newLev := { lev with runs := lev.runs.eraseIdx pos }
  let newLev ← newLev.insertRun st.res
  let lsm := { lsm with
    sc := st.sc
    dev := st.dev
    disk := lsm.disk.set lastIdx newLev }
  (st.mms.map (·.r)).foldlM (freeRun g) lsm

/-- A turn of the forced loop of `compaction_flush`. -/
def force (pos : ℕ) : Except Abort (Lsmtree δ) := do
  require .wrongPhase (lsm.phase = .forcing)
  rebuild g lsm pos

/-- The end of `compaction_flush`: the old memtable is freed, and `lsmtree_insert` takes a
new one. -/
def finish : Except Abort (Lsmtree δ) := do
  require .wrongPhase (lsm.phase = .forcing)
  let lsm ← freeRun g lsm lsm.memtable
  let (memtable, sc) ← populateLog g lsm.param lsm.sc lsm.param.memtableEntryNum
  return { lsm with memtable := memtable, sc := sc, phase := .idle }

/-- `compaction_clean_last_level`. -/
def cleanLastLevel (pos : ℕ) : Except Abort (Lsmtree δ) := do
  require .wrongPhase (lsm.phase = .idle)
  rebuild g lsm pos

/-- A step of the tree. -/
def step : LsmOp δ → Except Abort (Lsmtree δ)
  | .write lba data => write g lsm lba data
  | .flush => flush g lsm
  | .compact first second => compact g lsm first second
  | .force pos => force g lsm pos
  | .finish => finish g lsm
  | .cleanLastLevel pos => cleanLastLevel g lsm pos

/-- The state after a sequence of steps from `lsmtree_init`. -/
def exec (p : Param) (blank : δ) (ops : List (LsmOp δ)) : Except Abort (Lsmtree δ) :=
  init g p blank >>= fun lsm => run (step g) lsm ops

/-- The runs that are in use: those of the levels, the lost ones, and the memtable unless it
has been merged. -/
def live : List (Run δ) :=
  (if lsm.phase = .idle then [lsm.memtable] else []) ++ lsm.disk.flatMap (·.runs) ++ lsm.lost

end Lsmtree

end AppL
