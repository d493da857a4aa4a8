import AppL.Lsm.Run

/-!
# Iterators over the entries of a run

A merge reads every source through a `sp_set_iter`.  For a normal run it goes over the
summary pages one after another, for the memtable over its tree.  Blocks that can be moved
without copying are noted in it by the range of their lbas.
-/

namespace AppL

open Transition

/-- `sp_set_iter`.  `pages` is what is left of the summary pages of an `SPI_SET`, from the
page `now_STE_num` on, and `tree` what is left of the tree of an `MF_SET`.  `noncopyFlag` has
the indices whose flag is set. -/
structure SpSetIter where
  type : RunType
  maxSteNum : ℕ
  nowSteNum : ℕ
  pages : List (List SummaryPair)
  tree : TreeMap
  stePerEnt : ℕ
  miterPickCnt : ℕ
  differMap : Bool
  noncopyIdx : ℕ
  noncopyLba : List (ℕ × ℕ)
  noncopyFlag : List ℕ

/-- What `sp_set_iter_pick` gives: the pair, and the place it comes from. -/
structure Picked where
  lba : ℕ
  piecePpa : ℕ
  ste : ℕ
  intraIdx : ℕ
  deriving DecidableEq, Repr

namespace SpSetIter

variable {δ : Type} (g : Geometry) (ssi : SpSetIter)

/-- `sp_set_iter_init` for a normal run, `sp_set_iter_init_mf` for a log. -/
def init (r : Run δ) (targetMapType : MapType) : Except Abort SpSetIter := do
  let ssi : SpSetIter :=
    { type := r.type
      maxSteNum := r.stBody.nowSteNum
      nowSteNum := 0
      pages := []
      tree := []
      stePerEnt := 0
      miterPickCnt := 0
      differMap := r.stBody.mapType != targetMapType
      noncopyIdx := 0
      noncopyLba := []
      noncopyFlag := [] }
  match r.type with
  | .runNormal => return { ssi with pages := r.stBody.stes.map (·.page) }
  | .runLog => do
      require .divByNoSte (r.stBody.nowSteNum ≠ 0)
      return { ssi with
        tree := r.runLogMf
        stePerEnt := r.runLogMf.length / r.stBody.nowSteNum }

/-- `sp_set_iter_pick`: the next pair, if there is one. -/
def pick (r : Run δ) : Option Picked :=
  match ssi.type with
  | .runNormal =>
      match ssi.pages with
      | (p :: _) :: _ =>
          let intraOffset := p.piecePpa % g.maxSectorInBlock
          some ⟨p.lba, r.stBody.readTranslation ssi.nowSteNum intraOffset, ssi.nowSteNum,
            intraOffset⟩
      | _ => none
  | .runLog =>
      match ssi.tree with
      | (lba, offset) :: _ =>
          some ⟨lba, r.stBody.convertGlobalOffsetToPsa g offset, uint32Max, offset⟩
      | [] => none

/-- `sp_set_iter_skip_lba`: the block of entry `idx` need not be copied. -/
def skipLba (idx startLba endLba : ℕ) : SpSetIter :=
  { ssi with
    noncopyFlag := ssi.noncopyFlag ++ [idx]
    noncopyLba := ssi.noncopyLba ++ [(startLba, endLba)] }

/-- `sp_set_noncopy_check`: the lba is the first one of the next block to be moved. -/
def noncopyCheck (lba : ℕ) : Bool :=
  match ssi.noncopyLba[ssi.noncopyIdx]? with
  | some (startLba, _) => startLba == lba
  | none => false

/-- The entry that an iterator over the tree is in after one more pair. -/
def countPick : Except Abort SpSetIter := do
  require .divByZero (ssi.stePerEnt ≠ 0)
  return { ssi with
    miterPickCnt := ssi.miterPickCnt + 1
    nowSteNum := (ssi.miterPickCnt + 1) / ssi.stePerEnt }

/-- `sp_set_iter_move`. -/
def move : Except Abort SpSetIter :=
  match ssi.type with
  | .runNormal =>
      match ssi.pages with
      | [] => .error .outOfBounds
      | page :: pages =>
          match page.tail with
          | [] => .ok { ssi with pages := pages, nowSteNum := ssi.nowSteNum + 1 }
          | rest => .ok { ssi with pages := rest :: pages }
  | .runLog =>
      match ssi.tree.tail with
      | [] => .ok { ssi with tree := [], nowSteNum := ssi.nowSteNum + 1 }
      | rest =>
          if ssi.nowSteNum = ssi.maxSteNum then
            .ok { ssi with tree := rest, miterPickCnt := ssi.miterPickCnt + 1 }
          else
            countPick { ssi with tree := rest }

/-- The loop of `sp_set_iter_move_ste` over the tree. -/
def dropTree (endLba : ℕ) : TreeMap → SpSetIter → Except Abort SpSetIter
  | [], ssi => .ok { ssi with tree := [] }
  | (lba, offset) :: t, ssi =>
      if lba ≤ endLba then do
        let ssi ← ssi.countPick
        dropTree endLba t ssi
      else
        .ok { ssi with tree := (lba, offset) :: t }

/-- `sp_set_iter_move_ste`: the iterator goes to the block behind a moved one. -/
def moveSte (steNum endLba : ℕ) : Except Abort SpSetIter := do
  require .notMatchedSte (steNum ∈ ssi.noncopyFlag)
  match ssi.type with
  | .runNormal => return { ssi with pages := ssi.pages.tail, nowSteNum := ssi.nowSteNum + 1 }
  | .runLog => dropTree endLba ssi.tree ssi

/-- `sp_set_iter_done_check`. -/
def doneCheck : Bool :=
  match ssi.type with
  | .runNormal => ssi.pages.isEmpty
  | .runLog => ssi.tree.isEmpty

/-- The number of pairs that are left. -/
def remaining : ℕ := ssi.pages.flatten.length + ssi.tree.length

end SpSetIter

end AppL
