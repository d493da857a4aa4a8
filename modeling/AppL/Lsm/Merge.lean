import AppL.Lsm.SummarySet

/-!
# Merging runs

`run_merge` sorts the entries of its sources by lba, drops those that a newer run owns, and
writes the others to the target in rounds.  A block whose range of lbas meets no other block
of the sources is moved to the target as a whole.
-/

namespace AppL

open Transition

/-- `mm_container`: a source of a merge with its iterator. -/
structure Mm (δ : Type) where
  r : Run δ
  ssi : SpSetIter
  nowProcBlockIdx : ℕ
  done : Bool

/-- `__sorted_pair`: an entry on its way to the target; `ridx` is the source it is from. -/
structure SortedPair where
  ridx : ℕ
  lba : ℕ
  ste : ℕ
  intraIdx : ℕ
  deriving DecidableEq, Repr

/-- The state of `run_merge`: the sources, the target `res`, and the sorted entries that are
not written yet. -/
structure MergeState (δ : Type) where
  mms : List (Mm δ)
  res : Run δ
  sc : ShortcutMaster
  dev : Dev δ
  sortedArr : List SortedPair

namespace Mm

variable {δ : Type} (g : Geometry) (mm : Mm δ)

/-- The next pair of the source. -/
def pick : Option Picked := mm.ssi.pick g mm.r

/-- `__move_iter_target`. -/
def moveIterTarget : Except Abort (Mm δ) :=
  if mm.done then
    .ok mm
  else do
    let ssi ← mm.ssi.move
    return { mm with ssi := ssi, nowProcBlockIdx := ssi.nowSteNum, done := ssi.doneCheck }

/-- `__get_original_psa`: where an entry of the source is on flash. -/
def originalPsa (lba ste intraIdx : ℕ) : Except Abort ℕ :=
  match mm.r.type with
  | .runLog => do
      let globalOffset ← orThrow .outOfBounds (mm.r.runLogMf.lookup lba)
      return mm.r.stBody.convertGlobalOffsetToPsa g globalOffset
  | .runNormal => .ok (mm.r.stBody.readTranslation ste intraIdx)

/-- `__invalidate_target`: the place of an entry of the source is invalidated. -/
def invalidateTarget (dev : Dev δ) (lba piecePpa : ℕ) (force : Bool) (steNum : ℕ) :
    Except Abort (Dev δ) := do
  let psa ← mm.originalPsa g lba steNum (piecePpa % g.maxSectorInBlock)
  dev.invalidatePiecePpa g .bitError psa force

/-- An entry that a newer run owns: `shortcut_validity_check_lba` fails, or the block has been
moved with unlinked data (`sp_set_check_trivial_old_data`) and the check with its original
level and recency fails. -/
def isOld (sc : ShortcutMaster) (p : Picked) : Bool :=
  let spm := mm.r.stBody.steAt mm.ssi.nowSteNum
  !sc.validityCheckLba mm.r.info p.lba ||
    (mm.ssi.type == .runNormal && spm.unlinkedDataCopy &&
      !sc.validityCheckByValue mm.r.info spm.originalLevel spm.originalRecency p.lba)

end Mm

namespace MergeState

variable {δ : Type} (g : Geometry) (st : MergeState δ)

/-- The number of pairs that the sources have left. -/
def remaining : ℕ := (st.mms.map fun mm => mm.ssi.remaining).sum

/-- All sources are done. -/
def allDone : Bool := st.mms.all (·.done)

/-! ### Sorting -/

/-- The loop of `__pick_smallest_pair` from source `i` on: the first of the smallest lbas. -/
def pickSmallest : ℕ → List (Mm δ) → Option (ℕ × Picked)
  | _, [] => none
  | i, mm :: mms =>
      let rest := pickSmallest (i + 1) mms
      if mm.done then
        rest
      else
        match mm.pick g, rest with
        | none, _ => rest
        | some p, none => some (i, p)
        | some p, some (j, q) => if q.lba < p.lba then some (j, q) else some (i, p)

/-- An old entry is invalidated and skipped. -/
def skipOld (ridx : ℕ) (p : Picked) : Except Abort (MergeState δ) := do
  let mm ← orThrow .outOfBounds st.mms[ridx]?
  let dev ← mm.invalidateTarget g st.dev p.lba p.piecePpa false mm.ssi.nowSteNum
  let mm ← mm.moveIterTarget
  return { st with mms := st.mms.set ridx mm, dev := dev }

/-- `__pick_smallest_pair`: old entries are skipped until the smallest one is not old. -/
def pickSmallestPair : ℕ → MergeState δ → Except Abort (Option (ℕ × Picked) × MergeState δ)
  | 0, _ => .error .endlessLoop
  | fuel + 1, st =>
      match pickSmallest g 0 st.mms with
      | none => do
          require .outOfBounds (st.allDone = true)
          return (none, st)
      | some (ridx, p) => do
          let mm ← orThrow .outOfBounds st.mms[ridx]?
          if mm.isOld st.sc p then
            let st ← st.skipOld g ridx p
            pickSmallestPair fuel st
          else
            return (some (ridx, p), st)

/-- The invalidation of `__move_iter`: the entry of another source is not the one picked. -/
def dropOther (mm : Mm δ) (p : Picked) (isOther : Bool) (piecePpa : ℕ) (dev : Dev δ) :
    Except Abort (Dev δ) :=
  if isOther = true ∧ p.piecePpa ≠ piecePpa then
    mm.invalidateTarget g dev p.lba p.piecePpa false mm.ssi.nowSteNum
  else
    .ok dev

/-- `__move_iter` from source `i` on: every source goes past the lba that was picked from
source `ridx`, and the other entries of this lba are invalidated. -/
def moveIter (lba piecePpa ridx : ℕ) :
    ℕ → List (Mm δ) → Dev δ → Except Abort (List (Mm δ) × Dev δ)
  | _, [], dev => .ok ([], dev)
  | i, mm :: mms, dev => do
      if mm.done then
        let (mms, dev) ← moveIter lba piecePpa ridx (i + 1) mms dev
        return (mm :: mms, dev)
      else
        let p ← orThrow .outOfBounds (mm.pick g)
        if p.lba = lba then
          let dev ← dropOther g mm p (i != ridx) piecePpa dev
          let mm ← mm.moveIterTarget
          let (mms, dev) ← moveIter lba piecePpa ridx (i + 1) mms dev
          return (mm :: mms, dev)
        else
          let (mms, dev) ← moveIter lba piecePpa ridx (i + 1) mms dev
          return (mm :: mms, dev)

/-- The picked entry goes to the end of the sorted ones. -/
def push (ridx : ℕ) (p : Picked) : Except Abort (MergeState δ) := do
  let (mms, dev) ← moveIter g p.lba p.piecePpa ridx 0 st.mms st.dev
  return { st with
    mms := mms
    dev := dev
    sortedArr := st.sortedArr ++ [⟨ridx, p.lba, p.ste, p.intraIdx⟩] }

/-- `sp_set_noncopy_check` of the source an entry was picked from. -/
def noncopyCheck (ridx lba : ℕ) : Bool :=
  (st.mms[ridx]?).any fun mm => mm.ssi.noncopyCheck lba

/-- The side effect of a successful `sp_set_noncopy_check`. -/
def noncopyNext (ridx : ℕ) : MergeState δ :=
  { st with
    mms := st.mms.modify ridx fun mm =>
      { mm with ssi := { mm.ssi with noncopyIdx := mm.ssi.noncopyIdx + 1 } } }

/-- `__sorting_mm_set`: entries are sorted until all sources have gone through the blocks
below `targetRound`, or until a block is to be moved; then its source is returned.  `prev` is
the lba sorted last in this call. -/
def sortingMmSet (targetRound : ℕ) (trivialMoveFlag : Bool) :
    ℕ → Option ℕ → MergeState δ → Except Abort (Option ℕ × MergeState δ)
  | 0, _, _ => .error .endlessLoop
  | fuel + 1, prev, st => do
      if st.mms.all fun mm => mm.done || targetRound ≤ mm.nowProcBlockIdx then
        return (none, st)
      else
        let (picked, st) ← pickSmallestPair g (st.remaining + 1) st
        match picked with
        | none => sortingMmSet targetRound trivialMoveFlag fuel prev st
        | some (ridx, p) =>
            if trivialMoveFlag && st.noncopyCheck ridx p.lba then
              return (some ridx, st.noncopyNext ridx)
            else do
              require .sortingError (prev.all (· < p.lba) = true)
              let st ← st.push g ridx p
              sortingMmSet targetRound trivialMoveFlag fuel (some p.lba) st

/-! ### Writing the sorted entries -/

/-- `__read_merged_data` for one entry. -/
def readSorted (p : SortedPair) : Except Abort (SortedPair × ℕ × δ) := do
  let mm ← orThrow .outOfBounds st.mms[p.ridx]?
  let psa ← mm.originalPsa g p.lba p.ste p.intraIdx
  return (p, psa, st.dev.data psa)

/-- The first loop of `__write_merged_data`: the entry is invalidated in its source. -/
def invalidateSorted (dev : Dev δ) (x : SortedPair × ℕ × δ) : Except Abort (Dev δ) := do
  let mm ← orThrow .outOfBounds st.mms[x.1.ridx]?
  mm.invalidateTarget g dev x.1.lba x.2.1 true x.1.ste

/-- The second loop of `__write_merged_data`: the entry is inserted into the target. -/
def insertSorted (s : Run δ × ShortcutMaster × Dev δ) (x : SortedPair × ℕ × δ) :
    Except Abort (Run δ × ShortcutMaster × Dev δ) :=
  s.1.insert g s.2.1 s.2.2 x.1.lba x.2.2

/-- `__sorted_array_flush`: the sorted entries are read, invalidated in their sources,
inserted into the target, and linked to it. -/
def sortedArrayFlush : Except Abort (MergeState δ) := do
  let xs ← st.sortedArr.mapM (readSorted g st)
  let dev ← xs.foldlM (invalidateSorted g st) st.dev
  let (res, sc, dev) ← xs.foldlM (insertSorted g) (st.res, st.sc, dev)
  let sc ← sc.linkBulkLba res.info (xs.map fun x => x.1.lba)
  return { st with res := res, sc := sc, dev := dev, sortedArr := [] }

/-- The flush of a round, if anything was sorted in it. -/
def flushSorted : Except Abort (MergeState δ) :=
  if st.sortedArr = [] then .ok st else st.sortedArrayFlush g

/-! ### Moving a block -/

/-- The entry of the source that `trivial_move` moves, for the lba its iterator is at. -/
def targetSte (mm : Mm δ) (lba : ℕ) : Option ℕ :=
  match mm.r.type with
  | .runLog => mm.ssi.tree.head?.map fun x => x.2 / g.maxSectorInBlock
  | .runNormal => mm.r.stBody.getTargetSte lba

/-- The loop of `trivial_move`: the lbas up to `endLba`, and the source at the last one. -/
def collectLbas (endLba : ℕ) : ℕ → Mm δ → Except Abort (List ℕ × Mm δ)
  | 0, _ => .error .endlessLoop
  | fuel + 1, mm => do
      let p ← orThrow .outOfBounds (mm.pick g)
      if p.lba = endLba then
        return ([p.lba], mm)
      else
        let mm ← mm.moveIterTarget
        let (lbas, mm) ← collectLbas endLba fuel mm
        return (p.lba :: lbas, mm)

/-- The entry that `trivial_move` leaves in the target. -/
def movedSte (info : ScInfo) (unlinked : Bool) (ste : Ste) : Ste :=
  { ste with
    unlinkedDataCopy := unlinked
    originalLevel := info.levelIdx
    originalRecency := info.recency }

/-- The entry that `trivial_move` leaves in the source: its mapping function is empty. -/
def leftSte (ste : Ste) : Ste :=
  { ste with copied := true, mf := ste.mf.map fun mf => { mf with contents := [] } }

/-- `trivial_move`: the block at which source `ridx` stands becomes a block of the target.
The lbas that its source does not own any more are counted as unlinked. -/
def trivialMove (ridx : ℕ) : Except Abort (MergeState δ) := do
  let (res, dev) ← st.res.paddingCurrentBlock g st.dev
  let mm ← orThrow .outOfBounds st.mms[ridx]?
  let p ← orThrow .outOfBounds (mm.pick g)
  let steNum ← orThrow .outOfBounds (targetSte g mm p.lba)
  let ste := mm.r.stBody.steAt steNum
  let (lbas, mm) ← collectLbas g ste.endLba (mm.ssi.remaining + 1) mm
  let valid := lbas.filter (st.sc.validityCheckLba mm.r.info ·)
  let mf := if mm.ssi.differMap then some ⟨res.stBody.mapType, lbas.zipIdx⟩ else none
  let sa := res.stBody.copySte ste mf
  let sa := sa.modifySte res.stBody.nowSteNum
    (movedSte (st.sc.infoSet mm.r.info) (valid.length != lbas.length))
  let res := { res with stBody := sa, nowEntryNum := res.nowEntryNum + lbas.length }
  let sc := st.sc.updateInfo res.info fun i =>
    { i with unlinkedLbaNum := i.unlinkedLbaNum + (lbas.length - valid.length) }
  let sc ← sc.linkBulkLba res.info valid
  let ssi ← mm.ssi.moveSte steNum ste.endLba
  let mm := { mm with
    r := { mm.r with stBody := mm.r.stBody.modifySte steNum leftSte }
    ssi := ssi
    done := mm.done || ssi.doneCheck }
  return { st with mms := st.mms.set ridx mm, res := res, sc := sc, dev := dev }

/-! ### Blocks that need not be copied -/

/-- The search of `__check_disjoint_spm` for a block of source `k` that meets the block `ste`,
which is block `j` of source `i`. -/
def jointIn (isLog : Bool) (i j : ℕ) (ste : Ste) (k : ℕ) (r : Run δ) : Option ℕ :=
  if isLog = false ∧ k = i then
    none
  else if isLog = false ∧ r.type = .runNormal then
    r.stBody.jointCheck ste
  else
    r.stBody.jointCheckDebug ste (if isLog ∧ k = i then some j else none)

/-- The loop of `__check_disjoint_spm` over the sources from `k` on, for block `j` of source
`i`: the first block that meets it. -/
def firstJoint (isLog : Bool) (i j : ℕ) (ste : Ste) : ℕ → List (Run δ) → Option (ℕ × ℕ)
  | _, [] => none
  | k, r :: rs =>
      match jointIn isLog i j ste k r with
      | some idx => some (k, idx)
      | none => firstJoint isLog i j ste (k + 1) rs

/-- `__check_disjoint_spm`: the blocks that can be moved, as pairs of a source and an index.
`joint` has the blocks that are known to meet another one. -/
def checkDisjoint (rset : List (Run δ)) :
    List (ℕ × ℕ) → List (ℕ × ℕ) → List (ℕ × ℕ) → List (ℕ × ℕ)
  | [], _, acc => acc
  | (i, j) :: todo, joint, acc =>
      match rset[i]? with
      | none => checkDisjoint rset todo joint acc
      | some r =>
          let ste := r.stBody.steAt j
          if ste.pba = uint32Max ∨ ste.sorted = false ∨ ste.unlinkedDataCopy = true ∨
              (i, j) ∈ joint then
            checkDisjoint rset todo joint acc
          else
            match firstJoint (r.type == .runLog) i j ste 0 rset with
            | some (k, idx) => checkDisjoint rset todo ((k, idx) :: joint) acc
            | none => checkDisjoint rset todo joint (acc ++ [(i, j)])

/-- All blocks of the sources, in the order of the loops of `__check_disjoint_spm`. -/
def allBlocks (rset : List (Run δ)) : List (ℕ × ℕ) :=
  (rset.zipIdx).flatMap fun x => (List.range x.1.stBody.nowSteNum).map fun j => (x.2, j)

/-- The iterator of source `i` after `__check_disjoint_spm`. -/
def markDisjoint (i : ℕ) (r : Run δ) (blocks : List (ℕ × ℕ)) (ssi : SpSetIter) : SpSetIter :=
  blocks.foldl (fun ssi b =>
    if b.1 = i then
      ssi.skipLba b.2 (r.stBody.steAt b.2).startLba (r.stBody.steAt b.2).endLba
    else
      ssi) ssi

/-! ### The merge -/

/-- `__make_mmset` and `__check_disjoint_spm` for source `i`. -/
def makeMm (target : Run δ) (blocks : List (ℕ × ℕ)) (x : Run δ × ℕ) :
    Except Abort (Mm δ) := do
  let ssi ← SpSetIter.init x.1 target.stBody.mapType
  return ⟨x.1, markDisjoint x.2 x.1 blocks ssi, 0, false⟩

/-- The state in which the rounds of `run_merge` begin. -/
def start (rset : List (Run δ)) (target : Run δ) (force : Bool) (sc : ShortcutMaster)
    (dev : Dev δ) : Except Abort (MergeState δ) := do
  let blocks := if force then [] else checkDisjoint rset (allBlocks rset) [] []
  let mms ← rset.zipIdx.mapM (makeMm target blocks)
  return ⟨mms, target, rset.foldl (fun sc r => sc.setCompactionFlag r.info true) sc, dev, []⟩

/-- One round of `run_merge`. -/
def round (targetRound : ℕ) (force : Bool) : Except Abort (MergeState δ) := do
  let (target, st) ← sortingMmSet g targetRound (!force) (st.remaining + 2) none st
  let st ← st.flushSorted g
  match target with
  | none => return st
  | some ridx => st.trivialMove g ridx

/-- The rounds of `run_merge`, in each of which `step` more blocks of every source are gone
through. -/
def rounds (step : ℕ) (force : Bool) : ℕ → ℕ → MergeState δ → Except Abort (MergeState δ)
  | 0, _, _ => .error .endlessLoop
  | fuel + 1, targetRound, st => do
      let st ← st.round g (targetRound + step) force
      if st.allDone then
        return st
      else
        rounds step force fuel (targetRound + step) st

/-- The number of blocks in a round of `run_merge`. -/
def roundStep (rset : List (Run δ)) (force : Bool) : ℕ :=
  if force then
    match rset with
    | [] => 0
    | r :: _ => r.stBody.nowSteNum
  else
    4 * g.bps / rset.length

/-- A bound for the number of rounds, when a round goes through at least one block. -/
def roundBound : ℕ := st.remaining + (st.mms.map fun mm => mm.r.stBody.nowSteNum).sum + 2

end MergeState

/-- `run_merge`: the target and the sources after the merge. -/
def runMerge {δ : Type} (g : Geometry) (rset : List (Run δ)) (target : Run δ) (force : Bool)
    (sc : ShortcutMaster) (dev : Dev δ) : Except Abort (MergeState δ) := do
  let st ← MergeState.start rset target force sc dev
  let st ← MergeState.rounds g (MergeState.roundStep g rset force) force st.roundBound 0 st
  let (res, dev) ← st.res.insertDone g st.dev
  let sc := st.mms.foldl (fun sc mm => sc.setCompactionFlag mm.r.info false) st.sc
  return { st with res := res, sc := sc, dev := dev }

end AppL
