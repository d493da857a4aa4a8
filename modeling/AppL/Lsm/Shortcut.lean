import Mathlib.Logic.Function.Basic
import AppL.Settings
import AppL.Lib.Transition

/-!
# The shortcut

The shortcut maps every lba to the index of the run that holds its newest copy.  Every run
has a `shortcut_info` with its level and its recency, by which two runs that hold the same
lba are ranked.
-/

namespace AppL

open Transition

/-- `SC_PER_DIR`. -/
def scPerDir : ℕ := 256

/-- `shortcut_info`; `inUse` tells whether it belongs to a run (`r` is not null). -/
structure ScInfo where
  levelIdx : ℕ
  recency : ℕ
  linkedLbaNum : ℕ
  unlinkedLbaNum : ℕ
  nowCompaction : Bool
  inUse : Bool
  deriving DecidableEq, Repr

/-- `shortcut_master`.  An lba without a run (`NOT_ASSIGNED_SC`) is mapped to `none`. -/
structure ShortcutMaster where
  freeQ : List ℕ
  scMap : ℕ → Option ℕ
  infoSet : ℕ → ScInfo
  nowRecency : ℕ

/-- A difference of `uint32_t` values as an `int32_t`. -/
def subInt32 (a b : ℕ) : ℤ :=
  let d : ℕ := (a + 2 ^ 32 - b) % 2 ^ 32
  if d < 2 ^ 31 then (d : ℤ) else (d : ℤ) - 2 ^ 32

/-- `__get_recency_cmp`: positive when `a` is newer than `b`. -/
def recencyCmp (a b : ScInfo) : ℤ :=
  if a.levelIdx < b.levelIdx then 1
  else if b.levelIdx < a.levelIdx then -1
  else subInt32 a.recency b.recency

namespace ShortcutMaster

variable (sc : ShortcutMaster)

/-- `shortcut_init`: no lba is assigned and all indices are free. -/
def init (maxShortcutNum : ℕ) : ShortcutMaster where
  freeQ := List.range maxShortcutNum
  scMap _ := none
  infoSet _ := ⟨0, 0, 0, 0, false, false⟩
  nowRecency := 0

/-- The info of one index after a change. -/
def updateInfo (idx : ℕ) (f : ScInfo → ScInfo) : ShortcutMaster :=
  { sc with infoSet := Function.update sc.infoSet idx (f (sc.infoSet idx)) }

/-- `shortcut_add_run`: the first free index becomes the info of a run of the given level,
newer than all others. -/
def addRun (levelNum : ℕ) : Except Abort (ℕ × ShortcutMaster) :=
  match sc.freeQ with
  | [] => .error .noFreeRun
  | idx :: q =>
      if (sc.infoSet idx).inUse then
        .error .alreadyAssigned
      else
        let sc' := sc.updateInfo idx
          (fun i => { i with recency := sc.nowRecency, levelIdx := levelNum, inUse := true })
        .ok (idx, { sc' with freeQ := q, nowRecency := (sc.nowRecency + 1) % 2 ^ 32 })

/-- `shortcut_release_sc_info`: the index is free again. -/
def release (idx : ℕ) : ShortcutMaster :=
  let sc' := sc.updateInfo idx
    (fun i => { i with linkedLbaNum := 0, unlinkedLbaNum := 0, inUse := false })
  { sc' with freeQ := sc.freeQ ++ [idx] }

/-- `shortcut_set_compaction_flag`. -/
def setCompactionFlag (idx : ℕ) (flag : Bool) : ShortcutMaster :=
  sc.updateInfo idx (fun i => { i with nowCompaction := flag })

/-- `shortcut_link_lba`. -/
def linkLba (idx lba : ℕ) : ShortcutMaster :=
  let sc' := sc.updateInfo idx (fun i => { i with linkedLbaNum := i.linkedLbaNum + 1 })
  { sc' with scMap := Function.update sc.scMap lba (some idx) }

/-- `shortcut_unlink_lba` of an lba of the run with info `idx`. -/
def unlinkLba (idx lba : ℕ) : ShortcutMaster :=
  if sc.scMap lba = none then
    sc
  else
    let sc' := sc.updateInfo idx (fun i => { i with unlinkedLbaNum := i.unlinkedLbaNum + 1 })
    { sc' with scMap := Function.update sc.scMap lba none }

/-- One turn of the loop of `shortcut_link_bulk_lba` with `unlink` set: the owner of the lba
loses it to `idx`.  An lba without an owner indexes `info_set` out of its bounds. -/
def linkBulkOne (idx : ℕ) (sc : ShortcutMaster) (lba : ℕ) : Except Abort ShortcutMaster :=
  let sc' := sc.updateInfo idx (fun i => { i with linkedLbaNum := i.linkedLbaNum + 1 })
  match sc.scMap lba with
  | none => .error .outOfBounds
  | some owner =>
      let sc'' := sc'.updateInfo owner
        (fun i => { i with unlinkedLbaNum := i.unlinkedLbaNum + 1 })
      .ok { sc'' with scMap := Function.update sc.scMap lba (some idx) }

/-- `shortcut_link_bulk_lba` with `unlink` set. -/
def linkBulkLba (idx : ℕ) (lbas : List ℕ) : Except Abort ShortcutMaster :=
  lbas.foldlM (linkBulkOne idx) sc

/-- `shortcut_validity_check_lba`: no run newer than `idx` owns the lba. -/
def validityCheckLba (idx lba : ℕ) : Bool :=
  match sc.scMap lba with
  | none => true
  | some owner => recencyCmp (sc.infoSet owner) (sc.infoSet idx) ≤ 0

/-- `shortcut_validity_check_by_value`: the same for a level and a recency that are not those
of the run any more. -/
def validityCheckByValue (idx level recency lba : ℕ) : Bool :=
  match sc.scMap lba with
  | none => true
  | some owner =>
      if idx = owner then
        true
      else
        recencyCmp (sc.infoSet owner)
          { sc.infoSet idx with levelIdx := level, recency := recency } ≤ 0

/-- `shortcut_validity_check_and_link`: the run `des` takes the lba, unless its owner is newer
than `src`. -/
def validityCheckAndLink (src des lba : ℕ) : Bool × ShortcutMaster :=
  match sc.scMap lba with
  | none => (true, sc.linkLba des lba)
  | some owner =>
      if (sc.infoSet owner).nowCompaction = true ∨
          recencyCmp (sc.infoSet owner) (sc.infoSet src) ≤ 0 then
        let sc' := if (sc.infoSet owner).inUse then sc.unlinkLba owner lba else sc
        (true, sc'.linkLba des lba)
      else
        (false, sc)

end ShortcutMaster

end AppL
