import Mathlib.Data.Rat.Floor
import Mathlib.Data.Int.Log
import Mathlib.Order.WithBot
import Mathlib.Algebra.Order.Ring.WithTop
import AppL.Lib.ArgMax
import AppL.Lib.Transition
import AppL.Settings

/-!
# The slots of a level

A level has its runs in an array of slots and the indices of the occupied slots in a list, the
newest run first.  A compaction takes all runs, or two that have lost most of their lbas, and
puts the others into a new array.
-/

namespace AppL

open Transition

/-- A number as a `float`: 24 binary digits, the nearest, of two the even one. -/
def roundFloat (q : ℚ) : ℚ :=
  if q = 0 then
    0
  else
    let ulp : ℚ := 2 ^ (Int.log 2 q - 23)
    let n := ⌊q / ulp⌋
    let r := q / ulp - n
    if r < 1 / 2 ∨ r = 1 / 2 ∧ n % 2 = 0 then n * ulp else (n + 1) * ulp

/-- `invalid_ratio`, the quotient as a `float`: nothing when it is not a number. -/
def invalidRatio (unlinkedLbaNum nowEntryNum : ℕ) : Option (WithTop ℚ) :=
  if nowEntryNum = 0 then
    if unlinkedLbaNum = 0 then none else some ⊤
  else
    some (roundFloat (roundFloat unlinkedLbaNum / roundFloat nowEntryNum) : ℚ)

/-- `unlinked_lba_num` and `now_entry_num` of a run. -/
structure RunStat where
  unlinkedLbaNum : ℕ
  nowEntryNum : ℕ
  deriving DecidableEq, Repr

/-- The quotient as a `float`. -/
def RunStat.floatRatio (t : RunStat) : Option (WithTop ℚ) :=
  invalidRatio t.unlinkedLbaNum t.nowEntryNum

/-- The quotient. -/
def RunStat.ratio (t : RunStat) : ℚ := t.unlinkedLbaNum / t.nowEntryNum

/-- `level`; a slot without a run is null. -/
structure LevelSlots (ρ : Type) where
  maxRunNum : ℕ
  nowRunNum : ℕ
  recencyPointer : List ℕ
  runArray : ℕ → Option ρ

namespace LevelSlots

variable {ρ : Type}

/-- `level_init`. -/
def init (maxRunNum : ℕ) : LevelSlots ρ := ⟨maxRunNum, 0, [], fun _ => none⟩

variable (lev : LevelSlots ρ) (stat : ρ → RunStat)

/-- The runs from the newest to the oldest. -/
def runs : List ρ := lev.recencyPointer.filterMap lev.runArray

/-- `level_is_full`. -/
def isFull : Bool := lev.maxRunNum ≤ lev.nowRunNum

/-- The slots in the order in which `level_insert_run` looks at them. -/
def slots : List ℕ := (List.range lev.maxRunNum).map fun i => (lev.nowRunNum + i) % lev.maxRunNum

/-- `level_insert_run`. -/
def insertRun (r : Option ρ) : Except Abort (LevelSlots ρ) := do
  require .levelFull (lev.isFull = false)
  match lev.slots.find? fun idx => (lev.runArray idx).isNone with
  | some idx =>
      return { lev with
        runArray := Function.update lev.runArray idx r
        recencyPointer := idx :: lev.recencyPointer
        nowRunNum := lev.nowRunNum + 1 }
  | none => return { lev with nowRunNum := lev.nowRunNum + 1 }

/-- The slot of a run becomes null. -/
def clear (idx : ℕ) : LevelSlots ρ :=
  { lev with runArray := Function.update lev.runArray idx none, nowRunNum := lev.nowRunNum - 1 }

/-- The loop that takes the newest runs. -/
def takeRecent : ℕ → LevelSlots ρ → Except Abort (List (Option ρ) × LevelSlots ρ)
  | 0, lev => .ok ([], lev)
  | n + 1, lev =>
      match lev.recencyPointer with
      | [] => .error .outOfBounds
      | idx :: rest => do
          let (res, lev') ← takeRecent n { lev.clear idx with recencyPointer := rest }
          return (lev.runArray idx :: res, lev')

/-- The loop that looks for the run with the greatest ratio: its slot and its ratio.  The slot
`skip` is left out; `idx` is the slot before the loop. -/
def scan (idx : ℕ) (skip : Option ℕ) : ℕ × WithTop ℚ :=
  (List.range lev.nowRunNum).foldl
    (ArgMax.step fun i =>
      if some i = skip then none else (lev.runArray i).bind fun r => (stat r).floatRatio)
    (idx, -1)

/-- The loop over the list that takes two slots: the runs, the rest of the list, and the level. -/
def takeSorted (first second : ℕ) :
    ℕ → List ℕ → LevelSlots ρ → List (Option ρ) × List ℕ × LevelSlots ρ
  | _, [], lev => ([], [], lev)
  | num, idx :: rest, lev =>
      if first = idx ∨ second = idx then
        if num ≤ 1 then
          ([lev.runArray idx], rest, lev.clear idx)
        else
          let (res, rest, lev') := takeSorted first second (num - 1) rest (lev.clear idx)
          (lev.runArray idx :: res, rest, lev')
      else
        let (res, rest, lev) := takeSorted first second num rest lev
        (res, idx :: rest, lev)

/-- `level_get_compaction_target` when `gc_type` is 0. -/
def getCompactionTarget (runNum : ℕ) (oldFirst : Bool) :
    Except Abort (List (Option ρ) × LevelSlots ρ) :=
  if runNum = lev.nowRunNum then
    takeRecent runNum lev
  else if runNum = 2 then
    let (first, _) := lev.scan stat uint32Max none
    let (second, ratio) := lev.scan stat uint32Max (some first)
    let targetRatio := if oldFirst then 0 else ratio
    if targetRatio = 0 then
      takeRecent runNum lev
    else
      let (res, rest, lev) := takeSorted first second runNum lev.recencyPointer lev
      .ok (res, { lev with recencyPointer := rest })
  else
    .error .notImplemented

/-- `level_get_max_unlinked_run`. -/
def getMaxUnlinkedRun : Option ρ × LevelSlots ρ :=
  let targetIdx := (lev.scan stat 0 none).1
  if targetIdx ∈ lev.recencyPointer then
    (lev.runArray targetIdx,
      { lev.clear targetIdx with recencyPointer := lev.recencyPointer.erase targetIdx })
  else
    (lev.runArray targetIdx, lev)

/-- The new level of `__compaction_another_level`: when as many runs are left as have been taken,
they are not put into it. -/
def rebuild (targetSrcNum : ℕ) : Except Abort (LevelSlots ρ) :=
  if targetSrcNum ≠ lev.nowRunNum then
    lev.recencyPointer.reverse.foldlM (fun new idx => new.insertRun (lev.runArray idx))
      (init lev.maxRunNum)
  else
    .ok (init lev.maxRunNum)

end LevelSlots

/-- The calls on a level; what is known of the runs is given at each of them. -/
inductive LevelOp (ρ : Type)
  | insert (r : ρ)
  | target (stat : ρ → RunStat) (runNum : ℕ)
  | rebuild (targetSrcNum : ℕ)
  | getMax (stat : ρ → RunStat)

namespace LevelSlots

variable {ρ : Type}

/-- One call.  The caller of `level_get_compaction_target` uses all the runs it has asked for. -/
def step (lev : LevelSlots ρ) : LevelOp ρ → Except Abort (LevelSlots ρ)
  | .insert r => lev.insertRun (some r)
  | .target stat runNum => do
      let (res, lev) ← lev.getCompactionTarget stat runNum false
      require .outOfBounds (res.length = runNum)
      return lev
  | .rebuild targetSrcNum => lev.rebuild targetSrcNum
  | .getMax stat => .ok (lev.getMaxUnlinkedRun stat).2

/-- The runs for a compaction, all of which are used. -/
def takeTargets (lev : LevelSlots ρ) (stat : ρ → RunStat) (runNum : ℕ) (oldFirst : Bool) :
    Except Abort (LevelSlots ρ) := do
  let (res, lev) ← lev.getCompactionTarget stat runNum oldFirst
  require .outOfBounds (res.length = runNum ∧ ∀ r ∈ res, r.isSome)
  return lev

end LevelSlots

/-! ### All levels -/

/-- What `compaction_flush` does with the levels: the run of the memtable, the runs that are
merged from the levels, what is known of the runs then, and the runs that are rebuilt in the last
level. -/
structure LevelFlush (ρ : Type) where
  newRun : ρ
  merged : ℕ → ρ
  stat : ρ → RunStat
  forced : List ((ρ → RunStat) × ρ)

section Disk

variable {ρ : Type}

/-- The loop of `__compaction_another_level` from the level `diskIdx` on. -/
def compactionAnotherLevel (f : LevelFlush ρ) :
    ℕ → LevelSlots ρ → List (LevelSlots ρ) → Except Abort (List (LevelSlots ρ))
  | diskIdx, lev, [] =>
      if lev.isFull then do
        require .outOfBounds (2 ≤ lev.recencyPointer.length)
        let left ← lev.takeTargets f.stat 2 false
        let new ← left.rebuild 2
        let new ← new.insertRun (some (f.merged diskIdx))
        return [new]
      else
        return [lev]
  | diskIdx, lev, next :: rest =>
      if lev.isFull then do
        let left ← lev.takeTargets f.stat lev.nowRunNum true
        let new ← left.rebuild lev.nowRunNum
        let next ← next.insertRun (some (f.merged diskIdx))
        let rest ← compactionAnotherLevel f (diskIdx + 1) next rest
        return new :: rest
      else
        return lev :: next :: rest

/-- A run of the last level is rebuilt. -/
def forceRebuild (disk : List (LevelSlots ρ)) (q : (ρ → RunStat) × ρ) :
    Except Abort (List (LevelSlots ρ)) := do
  let lev ← orThrow .outOfBounds disk.getLast?
  let (target, lev) := lev.getMaxUnlinkedRun q.1
  require .outOfBounds target.isSome
  let lev ← lev.insertRun (some q.2)
  return disk.dropLast ++ [lev]

/-- `compaction_flush`. -/
def compactionFlush (disk : List (LevelSlots ρ)) (f : LevelFlush ρ) :
    Except Abort (List (LevelSlots ρ)) :=
  match disk with
  | [] => .error .outOfBounds
  | lev :: rest => do
      let lev ← lev.insertRun (some f.newRun)
      let disk ← compactionAnotherLevel f 0 lev rest
      f.forced.foldlM forceRebuild disk

end Disk

end AppL
