import AppL.Settings

/-!
# Translation pages

The mapping of the demand-based translation layer lies in translation pages.  The global
translation directory has an entry for every one of them, with its address in flash, its status
and the requests that wait for it.
-/

namespace AppL

/-- `PAGESIZE/sizeof(DMF)`: the mapping entries of a translation page. -/
def dmfPerPage : ℕ := pagesize / 4

/-- `GETGTDIDX`: the translation page of an lba. -/
def getGtdIdx (lba : ℕ) : ℕ := lba / dmfPerPage

/-- `TRANSOFFSET`: the entry of an lba in its translation page. -/
def transOffset (lba : ℕ) : ℕ := lba % dmfPerPage

/-- `GTD_ETR_STATUS`. -/
inductive GtdStatus where
  | empty
  | populate
  | clean
  | dirty
  | flying
  | evicting
  deriving DecidableEq, Repr

/-- A `GTD_entry`.  The requests of `pendingReq` are kept by their numbers, and `privateData`
tells whether the page has a node of the LRU list. -/
structure GtdEntry where
  physicalAddress : ℕ
  status : GtdStatus
  pendingReq : List ℕ
  privateData : Bool
  deriving DecidableEq, Repr

/-- `MAP_ASSIGN_STATUS`: how far a request has come with its current lba. -/
inductive MapAssignStatus where
  | none
  | hit
  | evictionw
  | evictionr
  | missr
  deriving DecidableEq, Repr

/-- The types of the requests that need the mapping. -/
inductive ReqType where
  | set
  | delete
  | get
  deriving DecidableEq, Repr

end AppL
