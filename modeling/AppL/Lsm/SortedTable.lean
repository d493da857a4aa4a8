import AppL.BlockManager

/-!
# Sorted tables

A run keeps its entries in blocks.  The sorted table of the run has an entry (STE) for every
block: the address of the block, its summary page with the lbas in it and their addresses,
and the mapping function that finds an lba in the block.
-/

namespace AppL

/-- `MAX_SECTOR_IN_BLOCK`: the number of pieces in a block. -/
def Geometry.maxSectorInBlock (g : Geometry) : ℕ := g.ppb * l2pgap

/-- The kinds of mapping functions. -/
inductive MapType where
  | guardBf
  | plrMap
  | compMap
  | treeMap
  deriving DecidableEq, Repr

/-- `summary_pair`. -/
structure SummaryPair where
  lba : ℕ
  piecePpa : ℕ
  deriving DecidableEq, Repr

/-- A mapping function of a block, by what has been inserted into it. -/
structure MapFunction where
  type : MapType
  contents : List (ℕ × ℕ)
  deriving DecidableEq, Repr

/-- An entry of the sorted table: `sorted_table_entry` and `summary_page_meta` of one index.
The summary page itself is `page`, without the fill after its last pair. -/
structure Ste where
  pba : ℕ
  mf : Option MapFunction
  startLba : ℕ
  endLba : ℕ
  piecePpa : ℕ
  page : List SummaryPair
  sorted : Bool
  unlinkedDataCopy : Bool
  copied : Bool
  originalLevel : ℕ
  originalRecency : ℕ
  deriving DecidableEq, Repr

/-- An entry as `st_array_init` leaves it. -/
def Ste.empty : Ste where
  pba := uint32Max
  mf := none
  startLba := uint32Max
  endLba := 0
  piecePpa := 0
  page := []
  sorted := true
  unlinkedDataCopy := false
  copied := false
  originalLevel := 0
  originalRecency := 0

/-- `st_array`.  The entries below `now_STE_num` are `stes`, the entry at `now_STE_num` is
`cur`, and `writing` tells that a pair is in it (`WRITE_PR`).  `mpNowPpa` and `mpNowIdx` are
the page of `mp_manager` and the number of its pieces that are taken. -/
structure StArray where
  maxSteNum : ℕ
  mapType : MapType
  stes : List Ste
  cur : Ste
  writing : Bool
  inblockWritePointer : ℕ
  globalWritePointer : ℕ
  summaryWriteAlert : Bool
  mpNowPpa : ℕ
  mpNowIdx : ℕ
  deriving DecidableEq, Repr

namespace StArray

variable (g : Geometry) (sa : StArray)

/-- `st_array_init` for `maxSectorNum` sectors. -/
def init (maxSectorNum : ℕ) (mapType : MapType) : StArray where
  maxSteNum := (maxSectorNum + g.maxSectorInBlock - 1) / g.maxSectorInBlock * 2
  mapType := mapType
  stes := []
  cur := Ste.empty
  writing := false
  inblockWritePointer := 0
  globalWritePointer := 0
  summaryWriteAlert := false
  mpNowPpa := uint32Max
  mpNowIdx := 0

/-- `now_STE_num`. -/
def nowSteNum : ℕ := sa.stes.length

/-- The entry of an index. -/
def steAt (i : ℕ) : Ste := (sa.stes[i]?).getD sa.cur

/-- `st_array_read_translation`: the address of a piece of a block. -/
def readTranslation (ste intraIdx : ℕ) : ℕ := (sa.steAt ste).pba * l2pgap + intraIdx

/-- `st_array_convert_global_offset_to_psa`. -/
def convertGlobalOffsetToPsa (globalOffset : ℕ) : ℕ :=
  (sa.steAt (globalOffset / g.maxSectorInBlock)).pba * l2pgap
    + globalOffset % g.maxSectorInBlock

/-! ### Searching the summary pages -/

/-- The loop of `spm_find_target_idx` between `s` and `e`; here `e` is one more than in the
code, where it may become negative. -/
def findTargetLoop (spm : ℕ → Ste) (lba : ℕ) : ℕ → ℕ → ℕ → Option ℕ
  | 0, _, _ => none
  | fuel + 1, s, e =>
      if e ≤ s then
        none
      else
        let mid := (s + (e - 1)) / 2
        if (spm mid).startLba = lba then
          some mid
        else if lba < (spm mid).startLba then
          findTargetLoop spm lba fuel s mid
        else if lba ≤ (spm mid).endLba then
          some mid
        else
          findTargetLoop spm lba fuel (mid + 1) e

/-- `st_array_get_target_STE`: `spm_find_target_idx` over the finished entries. -/
def getTargetSte (lba : ℕ) : Option ℕ :=
  findTargetLoop sa.steAt lba (sa.nowSteNum + 1) 0 sa.nowSteNum

/-- The loop of `spm_joint_check`, with the range as in `findTargetLoop`. -/
def jointCheckLoop (spm : ℕ → Ste) (target : Ste) : ℕ → ℕ → ℕ → Option ℕ
  | 0, _, _ => none
  | fuel + 1, s, e =>
      if e ≤ s then
        none
      else
        let mid := (s + (e - 1)) / 2
        if (spm mid).startLba = target.startLba then
          some mid
        else if (spm mid).startLba < target.startLba then
          if target.startLba ≤ (spm mid).endLba then
            some mid
          else
            jointCheckLoop spm target fuel (mid + 1) e
        else if (spm mid).startLba ≤ target.endLba then
          some mid
        else
          jointCheckLoop spm target fuel s mid

/-- `spm_joint_check`: an entry of the table whose range meets that of `target`. -/
def jointCheck (target : Ste) : Option ℕ :=
  jointCheckLoop sa.steAt target (sa.nowSteNum + 1) 0 sa.nowSteNum

/-- The loop of `spm_joint_check_debug` from index `i` on; `skip` is the index it leaves out,
and without one it stops at the first range behind that of `target`. -/
def jointCheckDebugLoop (target : Ste) (skip : Option ℕ) : ℕ → List Ste → Option ℕ
  | _, [] => none
  | i, ste :: stes =>
      if skip = some i then
        jointCheckDebugLoop target skip (i + 1) stes
      else if ste.endLba < target.startLba then
        jointCheckDebugLoop target skip (i + 1) stes
      else if target.endLba < ste.startLba then
        if skip = none then none else jointCheckDebugLoop target skip (i + 1) stes
      else
        some i

/-- `spm_joint_check_debug`. -/
def jointCheckDebug (target : Ste) (skip : Option ℕ) : Option ℕ :=
  jointCheckDebugLoop target skip 0 sa.stes

/-! ### Writing -/

/-- `sp_insert`: a pair is put on the summary page, which stays sorted as long as no lba is
smaller than the one before it. -/
def spInsert (ste : Ste) (p : SummaryPair) : Ste :=
  { ste with
    page := ste.page ++ [p]
    sorted := ste.sorted && (ste.page.getLast?.all fun q => q.lba ≤ p.lba) }

/-- The entry of `__st_array_insert_pair` after the pair is in it; its mapping function is
made with the first pair. -/
def steInsert (ste : Ste) (intraOffset : ℕ) (p : SummaryPair) : Ste :=
  let mf := ste.mf.getD ⟨sa.mapType, []⟩
  { spInsert ste p with
    startLba := min ste.startLba p.lba
    endLba := max ste.endLba p.lba
    mf := some { mf with contents := mf.contents ++ [(p.lba, intraOffset)] } }

/-- `st_array_insert_pair`: the pair goes into the current entry, and the last pair of a
block raises the alert to write its summary page. -/
def insertPair (p : SummaryPair) : Except Abort StArray :=
  if sa.summaryWriteAlert then
    .error .writeSummaryOrder
  else if sa.maxSteNum ≤ sa.nowSteNum then
    .error .sortedTableFull
  else
    .ok { sa with
      cur := sa.steInsert sa.cur sa.inblockWritePointer p
      writing := true
      inblockWritePointer := sa.inblockWritePointer + 1
      globalWritePointer := sa.globalWritePointer + 1
      summaryWriteAlert := (sa.inblockWritePointer + 1) % g.maxSectorInBlock == 0 }

/-- `st_array_get_summary_param`: the current entry is finished, with its summary page at
`piecePpa`, and the next one becomes current.  `mp_manager` is then at piece `mpNowIdx` of
`mpNowPpa`. -/
def finishSte (piecePpa mpNowPpa mpNowIdx : ℕ) : StArray :=
  { sa with
    stes := sa.stes ++ [{ sa.cur with piecePpa := piecePpa }]
    cur := Ste.empty
    writing := false
    inblockWritePointer := 0
    summaryWriteAlert := false
    mpNowPpa := mpNowPpa
    mpNowIdx := mpNowIdx }

/-- `st_get_remain`: the page of `mp_manager` is given away. -/
def getRemain : StArray := { sa with mpNowPpa := uint32Max, mpNowIdx := 0 }

/-- `st_array_force_skip_block`: raises the alert for a block that is not full; the result
tells whether there is one. -/
def forceSkipBlock : Except Abort (Bool × StArray) :=
  if sa.maxSteNum ≤ sa.nowSteNum then
    .error .sortedTableFull
  else if sa.writing then
    .ok (true, { sa with summaryWriteAlert := true })
  else
    .ok (false, sa)

/-- `st_array_copy_STE`: an entry of another table becomes an entry of this one, with the
mapping function `mf` when there is one. -/
def copySte (ste : Ste) (mf : Option MapFunction) : StArray :=
  { sa with
    stes := sa.stes ++ [{ ste with unlinkedDataCopy := true, mf := mf.orElse fun _ => ste.mf }]
    cur := Ste.empty
    writing := false
    inblockWritePointer := 0 }

/-- The change of one finished entry. -/
def modifySte (i : ℕ) (f : Ste → Ste) : StArray :=
  { sa with stes := sa.stes.modify i f }

end StArray

end AppL
