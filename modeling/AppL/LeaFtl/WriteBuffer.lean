import Mathlib.Data.Finset.Card
import Mathlib.Data.Finset.Dedup
import AppL.BlockManager
import AppL.LeaFtl.Mapping

/-!
# The write buffer

Writes are collected in a buffer with a place for every address, until all places are taken.
The buffer is then written to the active segment in the order of the addresses, as far as there
is space; where the segment ends, the mapping is updated with what has been written, the page
manager takes another segment or collects one, and the rest of the buffer follows.
-/

namespace AppL

open Transition

namespace LeaFtl

/-! ### The page manager -/

/-- A `page_manager`: its block manager, and its active segment. -/
structure PageManager where
  bm : BlockManager
  active : ℕ

namespace PageManager

variable (g : Geometry) (pm : PageManager)

/-- `pm_remain_space` of the active segment. -/
def pmRemainSpace : Except Abort ℕ :=
  if pm.bm.checkFull g pm.active then
    .ok 0
  else do
    let res ← pm.bm.pickPageAddr g pm.active
    let ppa ← orThrow .pageAddr res
    return g.pps - ppa % g.pps

/-- `pm_assign_new_seg` of a data segment, with `map_seg_number` and
`minimum_number_map_seg`. -/
def pmAssignNewSeg (mapSegNumber minimumNumberMapSeg : ℕ) : Except Abort (Bool × PageManager) :=
  if pm.bm.isGcNeeded then
    .ok (false, pm)
  else if pm.bm.totalFreePageNum g none / g.pps + mapSegNumber ≤ minimumNumberMapSeg then
    .ok (false, pm)
  else do
    let (active, bm) ← pm.bm.getSegActive
    let pm : PageManager := { bm := bm, active := active }
    let space ← pm.pmRemainSpace g
    require .newSegmentFull (space ≠ 0)
    return (true, pm)

/-- `validate_ppa`. -/
def validatePpa (ppa : ℕ) (lba : List ℕ) : PageManager :=
  let bm := (List.range lba.length).foldl (fun bm i => (bm.bitSet g (ppa * l2pgap + i)).2) pm.bm
  { pm with bm := bm.setOob lba ppa }

/-- `get_ppa` of the active segment. -/
def getPpa : Except Abort (ℕ × PageManager) := do
  require .fullSegment (pm.bm.checkFull g pm.active = false)
  let (res, bm) ← pm.bm.getPageAddr g pm.active
  let ppa ← orThrow .pageAddr res
  return (ppa, { pm with bm := bm })

/-- `pm_page_flush` to the active segment, with the address of the page. -/
def pmPageFlush (lba : List ℕ) : Except Abort (ℕ × PageManager) := do
  let (ppa, pm) ← pm.getPpa g
  return (ppa, pm.validatePpa g ppa lba)

end PageManager

/-! ### The buffer -/

/-- `std::map::insert` of a new key. -/
def mapInsert (lba slot : ℕ) : List (ℕ × ℕ) → List (ℕ × ℕ)
  | [] => [(lba, slot)]
  | x :: m => if lba < x.1 then (lba, slot) :: x :: m else x :: mapInsert lba slot m

/-- A `lea_write_buffer`; `L2P_map` has the place of every address, in the order of the
addresses. -/
structure WriteBuffer (δ : Type) where
  psPtr : ℕ
  maxPsPtr : ℕ
  sectorBuffer : ℕ → δ
  l2pMap : List (ℕ × ℕ)
  pageBuf : List (ℕ × δ)

namespace WriteBuffer

variable {δ : Type}

/-- `lea_write_buffer_init`; the sectors have some content. -/
def init (maxWriteBufferByte : ℕ) (sectorBuffer : ℕ → δ) : WriteBuffer δ where
  psPtr := 0
  maxPsPtr := maxWriteBufferByte / pagesize * l2pgap
  sectorBuffer := sectorBuffer
  l2pMap := []
  pageBuf := []

variable (wb : WriteBuffer δ)

/-- `lea_write_buffer_insert`. -/
def insert (lba : ℕ) (data : δ) : Except Abort (WriteBuffer δ) :=
  match wb.l2pMap.find? fun x => x.1 = lba with
  | some x => .ok { wb with sectorBuffer := Function.update wb.sectorBuffer x.2 data }
  | none => do
      require .outOfBounds (wb.psPtr < wb.maxPsPtr)
      return { wb with
        l2pMap := mapInsert lba wb.psPtr wb.l2pMap
        sectorBuffer := Function.update wb.sectorBuffer wb.psPtr data
        psPtr := wb.psPtr + 1 }

/-- `lea_write_buffer_isfull`. -/
def isfull : Bool := wb.psPtr = wb.maxPsPtr

/-- `lea_write_buffer_clear`. -/
def clear : WriteBuffer δ := { wb with psPtr := 0, l2pMap := [] }

end WriteBuffer

/-! ### Flushes -/

/-- What a flush does to the rest of the FTL: a page of the device is written, the mapping is
updated (`lea_mapping_update`) with addresses and their pieces, and a segment is collected
(`pm_gc`). -/
inductive Event (δ : Type)
  | dataWrite (ppa : ℕ) (items : List (ℕ × δ))
  | mappingUpdate (map : List (ℕ × ℕ))
  | gc
  deriving DecidableEq, Repr

/-- The state of `lea_write`. -/
structure Writer (δ : Type) where
  wb : WriteBuffer δ
  pm : PageManager
  userTempMap : List (ℕ × ℕ)
  events : List (Event δ)

/-- The rest of the FTL in one turn of the loop of `lea_write`: the page manager after the
mapping has been updated, the number of segments with translation pages, and the page manager
after a collection, if there is one. -/
structure Turn where
  updated : PageManager
  mapSegNumber : ℕ
  collected : PageManager

/-- One turn of the loop of `g_buffer_to_temp_map`. -/
def tempMapPush (map : List (ℕ × ℕ)) (q : ℕ × ℕ) : Except Abort (List (ℕ × ℕ)) := do
  match map.getLast? with
  | none => return [q]
  | some r =>
      let interval := (BitVec.ofNat 32 q.1 - BitVec.ofNat 32 r.1).toInt
      require .notSortedSet (0 ≤ interval)
      return map ++ [q]

namespace Writer

variable {δ : Type} (g : Geometry) (minimumNumberMapSeg : ℕ) (s : Writer δ)

/-- The align buffer is written to a page, and its addresses go to the map. -/
def pageFlush : Except Abort (Writer δ) := do
  let items := s.wb.pageBuf
  let (ppa, pm) ← s.pm.pmPageFlush g (items.map Prod.fst)
  let map ← ((items.map Prod.fst).zip (List.range' (ppa * l2pgap) items.length)).foldlM
    tempMapPush s.userTempMap
  return {
    wb := { s.wb with pageBuf := [] }
    pm := pm
    userTempMap := map
    events := s.events ++ [.dataWrite ppa items] }

/-- One turn of the loop of `lea_write_buffer_flush`, for the address `lba` at the place
`slot`. -/
def flushPiece (lba slot : ℕ) : Except Abort (Writer δ) :=
  let s := { s with wb := { s.wb with
    pageBuf := s.wb.pageBuf ++ [(lba, s.wb.sectorBuffer slot)] } }
  if s.wb.pageBuf.length = l2pgap then s.pageFlush g else .ok s

/-- The loop of `lea_write_buffer_flush`. -/
def flushLoop : ℕ → Writer δ → Except Abort (Writer δ)
  | 0, s => .ok s
  | n + 1, s =>
      match s.wb.l2pMap with
      | [] => .ok s
      | (lba, slot) :: rest => do
          let s ← s.flushPiece g lba slot
          flushLoop n { s with wb := { s.wb with l2pMap := rest } }

/-- `lea_write_buffer_flush`. -/
def leaWriteBufferFlush (pageSize : ℕ) : Except Abort (Bool × Writer δ) :=
  let targetFlushSize := min (pageSize * l2pgap) s.wb.l2pMap.length
  let res := decide (targetFlushSize ≥ s.wb.l2pMap.length)
  if pageSize = 0 then
    .ok (res, s)
  else do
    require .notDivided (targetFlushSize % l2pgap = 0)
    let s ← flushLoop g targetFlushSize s
    return (res, s)

/-- `lea_mapping_update` of the map of the flush. -/
def leaMappingUpdate (updated : PageManager) : Except Abort (Writer δ) := do
  require .emptyMap (s.userTempMap ≠ [])
  return { s with
    pm := updated
    userTempMap := []
    events := s.events ++ [.mappingUpdate s.userTempMap] }

/-- `pm_gc` of a data segment. -/
def pmGc (collected : PageManager) : Writer δ :=
  { s with pm := collected, events := s.events ++ [.gc] }

/-- A flush that has not written the whole buffer is followed by an update of the mapping, and
by a new segment or a collection. -/
def nextSegment (t : Turn) : Except Abort (Writer δ) := do
  let s ← if s.userTempMap ≠ [] then s.leaMappingUpdate t.updated else .ok s
  let (assigned, pm) ← s.pm.pmAssignNewSeg g t.mapSegNumber minimumNumberMapSeg
  let s := { s with pm := pm }
  return if assigned then s else s.pmGc t.collected

/-- The loop of `lea_write` over the flushes of a full buffer. -/
def retry : List Turn → Writer δ → Except Abort (Writer δ)
  | [], _ => .error .endlessLoop
  | t :: turns, s => do
      let remainSpace ← s.pm.pmRemainSpace g
      let (done, s) ← s.leaWriteBufferFlush g remainSpace
      if done then
        let s ← s.leaMappingUpdate t.updated
        return { s with wb := s.wb.clear }
      else
        let s ← s.nextSegment g minimumNumberMapSeg t
        retry turns s

/-- `lea_write`. -/
def leaWrite (lba : ℕ) (data : δ) (turns : List Turn) : Except Abort (Writer δ) := do
  let wb ← s.wb.insert lba data
  let s := { s with wb := wb }
  if wb.isfull then s.retry g minimumNumberMapSeg turns else return s

/-- A write, with what the rest of the FTL does in its turns, or anything else that changes the
page manager. -/
inductive Op (δ : Type)
  | write (lba : ℕ) (data : δ) (turns : List Turn)
  | other (pm : PageManager)

/-- One operation. -/
def step : Op δ → Except Abort (Writer δ)
  | .write lba data turns => s.leaWrite g minimumNumberMapSeg lba data turns
  | .other pm => .ok { s with pm := pm }

/-- The state after `lea_create`, with a buffer of some bytes. -/
def init (maxWriteBufferByte : ℕ) (sectorBuffer : ℕ → δ) (pm : PageManager) : Writer δ where
  wb := WriteBuffer.init maxWriteBufferByte sectorBuffer
  pm := pm
  userTempMap := []
  events := []

end Writer

/-! ### What a flush writes -/

section Events

variable {δ : Type}

/-- The addresses and data that an event writes to a page. -/
def Event.items : Event δ → List (ℕ × δ)
  | .dataWrite _ items => items
  | _ => []

/-- The pieces that an event gives to addresses. -/
def Event.placed : Event δ → List (ℕ × ℕ)
  | .dataWrite ppa items => (items.map Prod.fst).zip (List.range' (ppa * l2pgap) items.length)
  | _ => []

/-- The addresses and pieces that an event puts into the mapping. -/
def Event.mapped : Event δ → List (ℕ × ℕ)
  | .mappingUpdate map => map
  | _ => []

/-- All that has been written, in this order. -/
def written (ev : List (Event δ)) : List (ℕ × δ) := ev.flatMap Event.items

/-- Where it has been written. -/
def placed (ev : List (Event δ)) : List (ℕ × ℕ) := ev.flatMap Event.placed

/-- What has been put into the mapping. -/
def mapped (ev : List (Event δ)) : List (ℕ × ℕ) := ev.flatMap Event.mapped

@[simp]
theorem written_append (ev ev' : List (Event δ)) :
  written (ev ++ ev') = written ev ++ written ev'
  := List.flatMap_append

@[simp]
theorem placed_append (ev ev' : List (Event δ)) :
  placed (ev ++ ev') = placed ev ++ placed ev'
  := List.flatMap_append

@[simp]
theorem mapped_append (ev ev' : List (Event δ)) :
  mapped (ev ++ ev') = mapped ev ++ mapped ev'
  := List.flatMap_append

/-- Only pages are written. -/
def OnlyWrites (ev : List (Event δ)) : Prop := ∀ e ∈ ev, ∃ ppa items, e = .dataWrite ppa items

theorem OnlyWrites.append {ev ev' : List (Event δ)} (h : OnlyWrites ev) (h' : OnlyWrites ev') :
  OnlyWrites (ev ++ ev')
  := by
  intro e he
  rcases List.mem_append.mp he with he | he
  · apply h e he
  · apply h' e he

theorem OnlyWrites.mapped_eq {ev : List (Event δ)} (h : OnlyWrites ev) :
  mapped ev = []
  := by
  apply List.flatMap_eq_nil_iff.mpr
  intro e he
  obtain ⟨ppa, items, rfl⟩ := h e he
  rfl

/-- A buffer with the content `contents` is being flushed: `ev` has happened, and `rest` is
still to be written.  What has been written is in the mapping before each collection. -/
structure Flushing (contents : List (ℕ × δ)) (ev : List (Event δ)) (rest : List (ℕ × δ)) :
    Prop where
  written : written ev ++ rest = contents
  mapped : placed ev = mapped ev
  beforeGc : ∀ ev₁ ev₂, ev = ev₁ ++ .gc :: ev₂ → placed ev₁ = LeaFtl.mapped ev₁

theorem flushing_start (contents : List (ℕ × δ)) :
  Flushing contents [] contents
  := by
  refine ⟨rfl, rfl, ?_⟩
  intro ev₁ ev₂ h
  simp at h

/-- Pages are written, and then the mapping is updated with them. -/
theorem Flushing.update {contents rest rest' : List (ℕ × δ)} {ev ev' : List (Event δ)}
    (h : Flushing contents ev rest) (hw : OnlyWrites ev')
    (hrest : LeaFtl.written ev' ++ rest' = rest) :
  Flushing contents (ev ++ (ev' ++ [.mappingUpdate (placed ev')])) rest'
  := by
  have hnogc : Event.gc ∉ ev' ++ [.mappingUpdate (placed ev')] := by
    intro hmem
    rcases List.mem_append.mp hmem with hmem | hmem
    · obtain ⟨ppa, items, hgc⟩ := hw _ hmem
      cases hgc
    · cases List.mem_singleton.mp hmem
  constructor
  · rw [← h.written, ← hrest]
    simp [LeaFtl.written, Event.items]
  · rw [placed_append, mapped_append, h.mapped, placed_append, mapped_append, hw.mapped_eq]
    simp [placed, LeaFtl.mapped, Event.placed, Event.mapped]
  · intro ev₁ ev₂ heq
    rcases List.append_eq_append_iff.mp heq with ⟨as, rfl, has⟩ | ⟨bs, rfl, hbs⟩
    · exfalso
      apply hnogc
      rw [has]
      simp
    · cases bs with
      | nil =>
          exfalso
          apply hnogc
          rw [List.nil_append] at hbs
          rw [← hbs]
          simp
      | cons b bs =>
          rw [List.cons_append, List.cons.injEq] at hbs
          obtain ⟨rfl, -⟩ := hbs
          apply h.beforeGc ev₁ bs rfl

/-- A collection that begins when all that has been written is in the mapping. -/
theorem Flushing.gc {contents rest : List (ℕ × δ)} {ev : List (Event δ)}
    (h : Flushing contents ev rest) :
  Flushing contents (ev ++ [.gc]) rest
  := by
  constructor
  · rw [← h.written]
    simp [LeaFtl.written, Event.items]
  · rw [placed_append, mapped_append, h.mapped]
    simp [placed, LeaFtl.mapped, Event.placed, Event.mapped]
  · intro ev₁ ev₂ heq
    rcases List.eq_nil_or_concat ev₂ with rfl | ⟨l, a, rfl⟩
    · obtain ⟨rfl, -⟩ := List.append_inj' heq rfl
      apply h.mapped
    · rw [List.concat_eq_append, ← List.cons_append, ← List.append_assoc] at heq
      obtain ⟨rfl, -⟩ := List.append_inj' heq rfl
      apply h.beforeGc ev₁ l rfl

end Events

/-! ### The loop of a flush -/

section Loop

variable {δ : Type} {g : Geometry}

theorem meets_getPageAddr (bm : BlockManager) (t : ℕ) :
  Meets (· ≠ Abort.notDivided) (fun _ => True) (bm.getPageAddr g t)
  := by
  simp only [BlockManager.getPageAddr]
  split_ifs <;> simp [Meets]

theorem meets_pmPageFlush (pm : PageManager) (lba : List ℕ) :
  Meets (· ≠ Abort.notDivided) (fun _ => True) (pm.pmPageFlush g lba)
  := by
  refine Meets.bind (Q := fun _ => True) ?_ fun _ _ => trivial
  refine Meets.bind (meets_require (by simp)) fun _ _ => ?_
  refine Meets.bind (meets_getPageAddr pm.bm pm.active) fun _ _ => ?_
  exact Meets.bind (meets_orThrow fun _ => by simp) fun _ _ => trivial

theorem meets_tempMapPush {l : List (ℕ × ℕ)} :
  ∀ {map : List (ℕ × ℕ)},
    Meets (· ≠ Abort.notDivided) (fun map' => map' = map ++ l) (l.foldlM tempMapPush map)
  := by
  induction l with
  | nil =>
      intro map
      apply (List.append_nil map).symm
  | cons q l ih =>
      intro map
      rw [List.foldlM_cons]
      have hpush : Meets (· ≠ Abort.notDivided) (fun map' => map' = map ++ [q])
          (tempMapPush map q) := by
        unfold tempMapPush
        split
        · rename_i hnone
          rw [List.getLast?_eq_none_iff.mp hnone]
          rfl
        · exact Meets.bind (meets_require (by simp)) fun _ _ => rfl
      apply hpush.bind
      rintro _ rfl
      apply (@ih (map ++ [q])).mono
      rintro _ rfl
      rw [List.append_assoc, List.singleton_append]

/-- `s'` is `s` after the first `n` addresses of the map have been taken, with the events
`ev`. -/
structure Wrote (s s' : Writer δ) (n : ℕ) (ev : List (Event δ)) : Prop where
  events : s'.events = s.events ++ ev
  only : OnlyWrites ev
  written : written ev ++ s'.wb.pageBuf
    = s.wb.pageBuf ++ (s.wb.l2pMap.take n).map fun x => (x.1, s.wb.sectorBuffer x.2)
  rest : s'.wb.l2pMap = s.wb.l2pMap.drop n
  map : s'.userTempMap = s.userTempMap ++ placed ev
  short : s'.wb.pageBuf.length < l2pgap
  full : l2pgap ∣ (LeaFtl.written ev).length
  sectorBuffer : s'.wb.sectorBuffer = s.wb.sectorBuffer
  psPtr : s'.wb.psPtr = s.wb.psPtr
  maxPsPtr : s'.wb.maxPsPtr = s.wb.maxPsPtr

theorem wrote_nothing {s : Writer δ} {n : ℕ} (hshort : s.wb.pageBuf.length < l2pgap)
    (hn : n = 0 ∨ s.wb.l2pMap = []) :
  Wrote s s n []
  := by
  have htake : s.wb.l2pMap.take n = [] ∧ s.wb.l2pMap.drop n = s.wb.l2pMap := by
    rcases hn with rfl | hnil
    · exact ⟨rfl, rfl⟩
    · rw [hnil]
      simp
  constructor
  · rw [List.append_nil]
  · intro e he
    cases he
  · rw [htake.1]
    simp [LeaFtl.written]
  · apply htake.2.symm
  · simp [placed]
  · apply hshort
  · exact ⟨0, rfl⟩
  · rfl
  · rfl
  · rfl

theorem Wrote.trans {s s₁ s' : Writer δ} {m n : ℕ} {ev ev' : List (Event δ)}
    (h : Wrote s s₁ m ev) (h' : Wrote s₁ s' n ev') :
  Wrote s s' (m + n) (ev ++ ev')
  := by
  constructor
  · rw [h'.events, h.events, List.append_assoc]
  · apply h.only.append h'.only
  · rw [written_append, List.append_assoc, h'.written, ← List.append_assoc, h.written, h.rest,
      h.sectorBuffer, List.append_assoc, ← List.map_append, List.take_add]
  · rw [h'.rest, h.rest, List.drop_drop]
  · rw [h'.map, h.map, placed_append, List.append_assoc]
  · apply h'.short
  · rw [written_append, List.length_append]
    apply Nat.dvd_add h.full h'.full
  · rw [h'.sectorBuffer, h.sectorBuffer]
  · rw [h'.psPtr, h.psPtr]
  · rw [h'.maxPsPtr, h.maxPsPtr]

/-- One address goes to the align buffer, which is written when it is full. -/
theorem meets_flushPiece {s : Writer δ} {lba slot : ℕ} {rest : List (ℕ × ℕ)}
    (hmap : s.wb.l2pMap = (lba, slot) :: rest) (hshort : s.wb.pageBuf.length < l2pgap) :
  Meets (· ≠ Abort.notDivided)
    (fun s' => ∃ ev, Wrote s { s' with wb := { s'.wb with l2pMap := rest } } 1 ev)
    (s.flushPiece g lba slot)
  := by
  unfold Writer.flushPiece
  dsimp only
  have htake : s.wb.l2pMap.take 1 = [(lba, slot)] ∧ s.wb.l2pMap.drop 1 = rest := by
    rw [hmap]
    exact ⟨rfl, rfl⟩
  split
  · rename_i hfull
    unfold Writer.pageFlush
    dsimp only
    refine Meets.bind (meets_pmPageFlush _ _) ?_
    rintro ⟨ppa, pm⟩ -
    refine Meets.bind meets_tempMapPush ?_
    rintro _ rfl
    use [.dataWrite ppa (s.wb.pageBuf ++ [(lba, s.wb.sectorBuffer slot)])]
    constructor
    · rfl
    · intro e he
      exact ⟨_, _, List.mem_singleton.mp he⟩
    · rw [htake.1]
      simp [LeaFtl.written, Event.items]
    · apply htake.2.symm
    · simp [placed, Event.placed]
    · apply Nat.zero_lt_succ 3
    · simp only [LeaFtl.written, List.flatMap_singleton, Event.items]
      rw [hfull]
    · rfl
    · rfl
    · rfl
  · rename_i hnot
    use []
    constructor
    · simp
    · intro e he
      cases he
    · rw [htake.1]
      simp [LeaFtl.written]
    · apply htake.2.symm
    · simp [placed]
    · simp only [List.length_append, List.length_singleton] at hnot ⊢
      omega
    · exact ⟨0, rfl⟩
    · rfl
    · rfl
    · rfl

/-- The loop takes the first addresses of the map. -/
theorem meets_flushLoop (n : ℕ) :
  ∀ {s : Writer δ}, s.wb.pageBuf.length < l2pgap →
    Meets (· ≠ Abort.notDivided) (fun s' => ∃ ev, Wrote s s' n ev) (Writer.flushLoop g n s)
  := by
  induction n with
  | zero =>
      intro s hshort
      exact ⟨[], wrote_nothing hshort (.inl rfl)⟩
  | succ n ih =>
      intro s hshort
      unfold Writer.flushLoop
      split
      · rename_i hnil
        exact ⟨[], wrote_nothing hshort (.inr hnil)⟩
      · rename_i lba slot rest hmap
        apply (meets_flushPiece hmap hshort).bind
        rintro s₁ ⟨ev, hw⟩
        apply (ih hw.short).mono
        rintro s' ⟨ev', hw'⟩
        use ev ++ ev'
        rw [Nat.add_comm n 1]
        apply hw.trans hw'

theorem OnlyWrites.length_placed {ev : List (Event δ)} (h : OnlyWrites ev) :
  (placed ev).length = (LeaFtl.written ev).length
  := by
  induction ev with
  | nil => rfl
  | cons e ev ih =>
      obtain ⟨ppa, items, rfl⟩ := h e List.mem_cons_self
      have ih' := ih fun e he => h e (List.mem_cons_of_mem _ he)
      simp only [placed, LeaFtl.written, List.flatMap_cons, List.length_append] at ih' ⊢
      rw [ih']
      simp [Event.placed, Event.items]

/-- The addresses and data of a buffer, in the order of the addresses. -/
def WriteBuffer.contents (wb : WriteBuffer δ) : List (ℕ × δ) :=
  wb.l2pMap.map fun x => (x.1, wb.sectorBuffer x.2)

/-- What `lea_write_buffer_flush` has done with space for `pageSize` pages. -/
def FlushedPart (pageSize : ℕ) (s : Writer δ) (r : Bool × Writer δ) : Prop :=
  (pageSize = 0 ∧ r.2 = s ∧ r.1 = decide (s.wb.l2pMap.length = 0)) ∨
    ∃ n ev, 0 < pageSize ∧ n = min (pageSize * l2pgap) s.wb.l2pMap.length ∧
      Wrote s r.2 n ev ∧ r.2.wb.pageBuf = [] ∧ r.1 = decide (s.wb.l2pMap.length ≤ n)

/-- The abort of `lea_write_buffer_flush` is not reached, and whole pages are written. -/
theorem meets_leaWriteBufferFlush {s : Writer δ} (pageSize : ℕ) (hbuf : s.wb.pageBuf = [])
    (hwhole : l2pgap ∣ s.wb.l2pMap.length) :
  Meets (· ≠ Abort.notDivided) (FlushedPart pageSize s) (s.leaWriteBufferFlush g pageSize)
  := by
  unfold Writer.leaWriteBufferFlush
  dsimp only
  split
  · rename_i hzero
    left
    subst hzero
    simp
  · rename_i hpos
    have hdvd : l2pgap ∣ min (pageSize * l2pgap) s.wb.l2pMap.length := by
      rcases Nat.le_total (pageSize * l2pgap) s.wb.l2pMap.length with hle | hle
      · rw [Nat.min_eq_left hle]
        apply Nat.dvd_mul_left _ _
      · rw [Nat.min_eq_right hle]
        apply hwhole
    have hreq : require Abort.notDivided
        (min (pageSize * l2pgap) s.wb.l2pMap.length % l2pgap = 0) = .ok () := by
      rw [require, if_pos (Nat.mod_eq_zero_of_dvd hdvd)]
    apply (meets_of_eq hreq).bind
    rintro _ -
    apply (meets_flushLoop _ (by rw [hbuf]; exact Nat.zero_lt_succ 3)).bind
    rintro s' ⟨ev, hw⟩
    right
    refine ⟨_, ev, Nat.pos_of_ne_zero hpos, rfl, hw, ?_, rfl⟩
    have hlen := congrArg List.length hw.written
    rw [hbuf, List.nil_append, List.length_append, List.length_map, List.length_take,
      Nat.min_eq_left (Nat.min_le_right _ _)] at hlen
    have hshort := hw.short
    have hfull := (Nat.dvd_add_right hw.full).mp (hlen ▸ hdvd)
    apply List.length_eq_zero_iff.mp (Nat.eq_zero_of_dvd_of_lt hfull hshort)

/-- A buffer with the content `contents` is being flushed, since the events were `before`. -/
structure MidFlush (max : ℕ) (before : List (Event δ)) (contents : List (ℕ × δ)) (s : Writer δ) :
    Prop where
  flushing : ∃ ev, s.events = before ++ ev ∧ Flushing contents ev s.wb.contents
  pageBuf : s.wb.pageBuf = []
  map : s.userTempMap = []
  whole : l2pgap ∣ s.wb.l2pMap.length
  maxPsPtr : s.wb.maxPsPtr = max

/-- Pages have been written, and the mapping is updated with them. -/
theorem MidFlush.update {max pageSize n : ℕ} {before ev : List (Event δ)}
    {contents : List (ℕ × δ)} {s s' : Writer δ} (h : MidFlush max before contents s)
    (hn : n = min (pageSize * l2pgap) s.wb.l2pMap.length) (hw : Wrote s s' n ev)
    (hbuf : s'.wb.pageBuf = []) (updated : PageManager) :
  Meets (· ≠ Abort.notDivided) (fun s'' => MidFlush max before contents s'' ∧ s''.wb = s'.wb)
    (s'.leaMappingUpdate updated)
  := by
  obtain ⟨ev₀, hev₀, hfl⟩ := h.flushing
  unfold Writer.leaMappingUpdate
  apply (meets_require (by simp)).bind
  rintro _ -
  refine ⟨?_, rfl⟩
  have hmap := hw.map
  rw [h.map, List.nil_append] at hmap
  constructor
  · refine ⟨ev₀ ++ (ev ++ [.mappingUpdate (placed ev)]), ?_, ?_⟩
    · simp only
      rw [hmap, hw.events, hev₀, List.append_assoc, List.append_assoc]
    · apply hfl.update hw.only
      have hwr := hw.written
      rw [hbuf, List.append_nil, h.pageBuf, List.nil_append] at hwr
      simp only [WriteBuffer.contents]
      rw [hwr, hw.rest, hw.sectorBuffer, ← List.map_append, List.take_append_drop]
  · apply hbuf
  · rfl
  · simp only
    rw [hw.rest, List.length_drop]
    apply Nat.dvd_sub h.whole
    rw [hn]
    rcases Nat.le_total (pageSize * l2pgap) s.wb.l2pMap.length with hle | hle
    · rw [Nat.min_eq_left hle]
      apply Nat.dvd_mul_left _ _
    · rw [Nat.min_eq_right hle]
      apply h.whole
  · rw [hw.maxPsPtr]
    apply h.maxPsPtr

theorem meets_pmRemainSpace (pm : PageManager) :
  Meets (· ≠ Abort.notDivided) (fun _ => True) (pm.pmRemainSpace g)
  := by
  unfold PageManager.pmRemainSpace
  split
  · trivial
  · refine Meets.bind (Q := fun _ => True) ?_ fun _ _ => ?_
    · simp only [BlockManager.pickPageAddr]
      split_ifs <;> simp [Meets]
    · exact Meets.bind (meets_orThrow fun _ => by simp) fun _ _ => trivial

theorem meets_pmAssignNewSeg (pm : PageManager) (m n : ℕ) :
  Meets (· ≠ Abort.notDivided) (fun _ => True) (pm.pmAssignNewSeg g m n)
  := by
  unfold PageManager.pmAssignNewSeg
  split
  · trivial
  · split
    · trivial
    · refine Meets.bind (Q := fun _ => True) ?_ fun _ _ => ?_
      · unfold BlockManager.getSegActive
        split
        · simp [Meets]
        · trivial
      · refine Meets.bind (meets_pmRemainSpace _) fun _ _ => ?_
        exact Meets.bind (meets_require (by simp)) fun _ _ => trivial

/-- Another segment is taken, or one is collected. -/
theorem MidFlush.collect {max : ℕ} {before : List (Event δ)} {contents : List (ℕ × δ)}
    {s : Writer δ} (h : MidFlush max before contents s) (pm : PageManager) (assigned : Bool)
    (collected : PageManager) :
  MidFlush max before contents
    (if assigned then { s with pm := pm } else ({ s with pm := pm } : Writer δ).pmGc collected)
  := by
  cases assigned with
  | true => use h.flushing, h.pageBuf, h.map, h.whole, h.maxPsPtr
  | false =>
      obtain ⟨ev, hev, hfl⟩ := h.flushing
      refine ⟨⟨ev ++ [.gc], ?_, hfl.gc⟩, h.pageBuf, h.map, h.whole, h.maxPsPtr⟩
      simp [Writer.pmGc, hev]

/-- The loop of `lea_write` writes the buffer and clears it. -/
theorem meets_retry {max minimumNumberMapSeg : ℕ} {before : List (Event δ)}
    {contents : List (ℕ × δ)} (turns : List Turn) :
  ∀ {s : Writer δ}, MidFlush max before contents s →
    Meets (· ≠ Abort.notDivided)
      (fun s' => ∃ ev, s'.events = before ++ ev ∧ Flushing contents ev [] ∧ s'.userTempMap = [] ∧
        s'.wb.pageBuf = [] ∧ s'.wb.l2pMap = [] ∧ s'.wb.psPtr = 0 ∧ s'.wb.maxPsPtr = max)
      (s.retry g minimumNumberMapSeg turns)
  := by
  induction turns with
  | nil =>
      intro s _
      simp [Writer.retry, Meets]
  | cons t turns ih =>
      intro s h
      unfold Writer.retry
      apply (meets_pmRemainSpace s.pm).bind
      intro remainSpace _
      apply (meets_leaWriteBufferFlush remainSpace h.pageBuf h.whole).bind
      rintro ⟨done, s₁⟩ hpart
      dsimp only
      have hupdate : ∀ n ev, n = min (remainSpace * l2pgap) s.wb.l2pMap.length →
          Wrote s s₁ n ev → s₁.wb.pageBuf = [] → Meets (· ≠ Abort.notDivided)
            (fun s' => MidFlush max before contents s' ∧ s'.wb = s₁.wb)
            (s₁.leaMappingUpdate t.updated) :=
        fun n ev hn hw hbuf => h.update hn hw hbuf t.updated
      rcases hpart with ⟨rfl, hs, hdone⟩ | ⟨n, ev, hpos, hn, hw, hbuf, hdone⟩
      · simp only at hs hdone
        subst hs
        split
        · unfold Writer.leaMappingUpdate
          rw [require, if_neg (by simp [h.map])]
          simp [Meets, bind, Except.bind]
        · unfold Writer.nextSegment
          rw [if_neg (by simp [h.map])]
          refine Meets.bind (Q := MidFlush max before contents) ?_ fun _ h' => ih h'
          refine Meets.bind (meets_of_eq rfl) ?_
          rintro _ rfl
          refine Meets.bind (meets_pmAssignNewSeg _ t.mapSegNumber minimumNumberMapSeg) ?_
          rintro ⟨assigned, pm⟩ -
          apply h.collect pm assigned t.collected
      · simp only at hdone hbuf hw
        split
        · rename_i htrue
          have hall : s.wb.l2pMap.length ≤ n := by
            rw [htrue] at hdone
            apply of_decide_eq_true hdone.symm
          apply (hupdate n ev hn hw hbuf).bind
          rintro s₂ ⟨h₂, hwb⟩
          obtain ⟨ev₂, hev₂, hfl₂⟩ := h₂.flushing
          have hnil : s₂.wb.l2pMap = [] := by
            rw [hwb, hw.rest]
            apply List.drop_eq_nil_of_le hall
          refine ⟨ev₂, hev₂, ?_, h₂.map, h₂.pageBuf, rfl, rfl, h₂.maxPsPtr⟩
          simp only [WriteBuffer.contents, hnil, List.map_nil] at hfl₂
          apply hfl₂
        · rename_i hfalse
          have hmore : n < s.wb.l2pMap.length := by
            by_contra hge
            rw [decide_eq_true (by omega)] at hdone
            apply hfalse hdone
          have hne : s₁.userTempMap ≠ [] := by
            have hlen := hw.only.length_placed
            have hwr := congrArg List.length hw.written
            rw [hbuf, List.append_nil, h.pageBuf, List.nil_append, List.length_map,
              List.length_take] at hwr
            rw [hw.map, h.map, List.nil_append]
            intro hnil
            rw [hnil, List.length_nil, hwr] at hlen
            unfold l2pgap at hn
            omega
          unfold Writer.nextSegment
          rw [if_pos hne]
          refine Meets.bind (Q := MidFlush max before contents) ?_ fun _ h' => ih h'
          apply (hupdate n ev hn hw hbuf).bind
          rintro s₂ ⟨h₂, -⟩
          apply (meets_pmAssignNewSeg s₂.pm t.mapSegNumber minimumNumberMapSeg).bind
          rintro ⟨assigned, pm⟩ -
          apply h₂.collect pm assigned t.collected

end Loop

/-! ### What the buffer holds -/

section Buffer

variable {δ : Type}

/-- The data of the last write of an address. -/
def latest (ws : List (ℕ × δ)) (lba : ℕ) : Option δ :=
  ws.foldl (fun acc x => if x.1 = lba then some x.2 else acc) none

theorem latest_append (ws : List (ℕ × δ)) (lba lba' : ℕ) (data : δ) :
  latest (ws ++ [(lba, data)]) lba' = if lba = lba' then some data else latest ws lba'
  := by
  simp only [latest, List.foldl_append, List.foldl_cons, List.foldl_nil]

/-- The number of addresses that have been written. -/
def distinct (ws : List (ℕ × δ)) : ℕ := (ws.map Prod.fst).toFinset.card

/-- The buffer after the writes `ws`: it has a place for every address, with its last data. -/
structure Holds (ws : List (ℕ × δ)) (wb : WriteBuffer δ) : Prop where
  sorted : wb.l2pMap.Pairwise fun a b => a.1 < b.1
  keys : ∀ lba, lba ∈ wb.l2pMap.map Prod.fst ↔ lba ∈ ws.map Prod.fst
  latest : ∀ x ∈ wb.l2pMap, latest ws x.1 = some (wb.sectorBuffer x.2)
  slots : (wb.l2pMap.map Prod.snd).Nodup
  used : ∀ x ∈ wb.l2pMap, x.2 < wb.psPtr
  psPtr : wb.psPtr = wb.l2pMap.length
  pageBuf : wb.pageBuf = []

theorem mapInsert_perm (lba slot : ℕ) (m : List (ℕ × ℕ)) :
  (mapInsert lba slot m).Perm ((lba, slot) :: m)
  := by
  induction m with
  | nil => apply List.Perm.refl _
  | cons x m ih =>
      unfold mapInsert
      split
      · apply List.Perm.refl _
      · apply (ih.cons x).trans (List.Perm.swap _ _ _)

theorem mapInsert_sorted {lba slot : ℕ} {m : List (ℕ × ℕ)}
    (hm : m.Pairwise fun a b => a.1 < b.1) (hnew : ∀ x ∈ m, x.1 ≠ lba) :
  (mapInsert lba slot m).Pairwise fun a b => a.1 < b.1
  := by
  induction m with
  | nil => apply List.pairwise_singleton _ _
  | cons x m ih =>
      obtain ⟨hx, hm⟩ := List.pairwise_cons.mp hm
      unfold mapInsert
      split
      · rename_i hlt
        refine List.pairwise_cons.mpr ⟨?_, List.pairwise_cons.mpr ⟨hx, hm⟩⟩
        intro y hy
        rcases List.mem_cons.mp hy with rfl | hy
        · apply hlt
        · apply hlt.trans (hx y hy)
      · rename_i hge
        refine List.pairwise_cons.mpr ⟨?_, ih hm fun y hy => hnew y (List.mem_cons_of_mem x hy)⟩
        intro y hy
        rcases List.mem_cons.mp ((mapInsert_perm lba slot m).subset hy) with rfl | hy
        · have hne := hnew x List.mem_cons_self
          dsimp only
          omega
        · apply hx y hy

theorem Holds.nodup {ws : List (ℕ × δ)} {wb : WriteBuffer δ} (h : Holds ws wb) :
  (wb.l2pMap.map Prod.fst).Nodup
  := by
  rw [List.nodup_iff_pairwise_ne, List.pairwise_map]
  apply h.sorted.imp fun hab => Nat.ne_of_lt hab

/-- The places in use are as many as the addresses. -/
theorem Holds.psPtr_eq {ws : List (ℕ × δ)} {wb : WriteBuffer δ} (h : Holds ws wb) :
  wb.psPtr = distinct ws
  := by
  have hset : (ws.map Prod.fst).toFinset = (wb.l2pMap.map Prod.fst).toFinset := by
    ext lba
    rw [List.mem_toFinset, List.mem_toFinset, h.keys]
  rw [distinct, hset, List.toFinset_card_of_nodup h.nodup, List.length_map, h.psPtr]

/-- A write of an address that is in the buffer replaces its data. -/
theorem Holds.overwrite {ws : List (ℕ × δ)} {wb : WriteBuffer δ} (h : Holds ws wb) {x : ℕ × ℕ}
    (hx : x ∈ wb.l2pMap) (data : δ) :
  Holds (ws ++ [(x.1, data)]) { wb with sectorBuffer := Function.update wb.sectorBuffer x.2 data }
  := by
  have hkey : x.1 ∈ ws.map Prod.fst := (h.keys x.1).mp (List.mem_map_of_mem hx)
  refine ⟨h.sorted, ?_, ?_, h.slots, h.used, h.psPtr, h.pageBuf⟩
  · intro lba
    rw [h.keys, List.map_append, List.mem_append, List.map_singleton, List.mem_singleton]
    constructor
    · exact .inl
    · rintro (hin | rfl)
      · apply hin
      · apply hkey
  · intro y hy
    rw [latest_append]
    by_cases heq : x.1 = y.1
    · have hxy := List.inj_on_of_nodup_map h.nodup hx hy heq
      rw [if_pos heq, hxy]
      simp
    · have hne : y.2 ≠ x.2 := by
        intro hslot
        have := List.inj_on_of_nodup_map h.slots hy hx hslot
        rw [this] at heq
        apply heq rfl
      rw [if_neg heq, h.latest y hy]
      simp only
      rw [Function.update_of_ne hne]

/-- A write of a new address takes the next place. -/
theorem Holds.add {ws : List (ℕ × δ)} {wb : WriteBuffer δ} (h : Holds ws wb) {lba : ℕ}
    (hnew : ∀ x ∈ wb.l2pMap, x.1 ≠ lba) (data : δ) :
  Holds (ws ++ [(lba, data)]) { wb with
    l2pMap := mapInsert lba wb.psPtr wb.l2pMap
    sectorBuffer := Function.update wb.sectorBuffer wb.psPtr data
    psPtr := wb.psPtr + 1 }
  := by
  have hperm := mapInsert_perm lba wb.psPtr wb.l2pMap
  have hslots := hperm.map Prod.snd
  constructor
  · apply mapInsert_sorted h.sorted hnew
  · intro lba'
    rw [(hperm.map Prod.fst).mem_iff, List.map_append, List.mem_append, List.map_cons,
      List.mem_cons, h.keys, List.map_singleton, List.mem_singleton, or_comm]
  · intro y hy
    rw [latest_append]
    rcases List.mem_cons.mp (hperm.subset hy) with rfl | hy
    · simp
    · have hne : y.2 ≠ wb.psPtr := Nat.ne_of_lt (h.used y hy)
      rw [if_neg (hnew y hy).symm, h.latest y hy]
      simp only
      rw [Function.update_of_ne hne]
  · rw [hslots.nodup_iff, List.map_cons, List.nodup_cons]
    refine ⟨?_, h.slots⟩
    intro hmem
    obtain ⟨y, hy, heq⟩ := List.mem_map.mp hmem
    have := h.used y hy
    omega
  · intro y hy
    rcases List.mem_cons.mp (hperm.subset hy) with rfl | hy
    · apply Nat.lt_succ_self _
    · apply (h.used y hy).trans (Nat.lt_succ_self _)
  · simp only
    rw [hperm.length_eq, List.length_cons, h.psPtr]
  · apply h.pageBuf

theorem meets_insert {ws : List (ℕ × δ)} {wb : WriteBuffer δ} (h : Holds ws wb) (lba : ℕ)
    (data : δ) :
  Meets (· ≠ Abort.notDivided)
    (fun wb' => Holds (ws ++ [(lba, data)]) wb' ∧ wb'.maxPsPtr = wb.maxPsPtr)
    (wb.insert lba data)
  := by
  unfold WriteBuffer.insert
  split
  · rename_i x hx
    have hkey : x.1 = lba := by simpa using List.find?_some hx
    subst hkey
    exact ⟨h.overwrite (List.mem_of_find?_eq_some hx) data, rfl⟩
  · rename_i hnone
    have hnew : ∀ x ∈ wb.l2pMap, x.1 ≠ lba := by
      intro x hx
      simpa using List.find?_eq_none.mp hnone x hx
    exact (meets_require (by simp)).bind fun _ _ => ⟨h.add hnew data, rfl⟩

end Buffer

/-! ### Runs -/

section Runs

variable {δ : Type}

/-- What a full buffer is for: the writes that filled it, since it was cleared. -/
structure History (δ : Type) where
  flushed : List (List (ℕ × δ))
  buffered : List (ℕ × δ)

/-- The buffer is flushed by the write that brings the last address it has a place for. -/
def History.step (max : ℕ) (h : History δ) : Writer.Op δ → History δ
  | .write lba data _ =>
      let ws := h.buffered ++ [(lba, data)]
      if distinct ws = max then ⟨h.flushed ++ [ws], []⟩ else ⟨h.flushed, ws⟩
  | .other _ => h

/-- The history of some operations. -/
def history (max : ℕ) (ops : List (Writer.Op δ)) : History δ :=
  ops.foldl (History.step max) ⟨[], []⟩

/-- The flush of the writes `ws`: the addresses are written in increasing order, so that each is
written once, with its last data; what is written goes into the mapping, before any
collection. -/
structure Flushed (ws : List (ℕ × δ)) (ev : List (Event δ)) : Prop where
  increasing : ((written ev).map Prod.fst).Pairwise (· < ·)
  all : ∀ lba, lba ∈ (written ev).map Prod.fst ↔ lba ∈ ws.map Prod.fst
  latest : ∀ x ∈ written ev, latest ws x.1 = some x.2
  mapped : placed ev = mapped ev
  beforeGc : ∀ ev₁ ev₂, ev = ev₁ ++ .gc :: ev₂ → placed ev₁ = LeaFtl.mapped ev₁

/-- A buffer that has been written was written as it should be. -/
theorem Flushing.flushed {ws : List (ℕ × δ)} {wb : WriteBuffer δ} {ev : List (Event δ)}
    (h : Flushing wb.contents ev []) (hwb : Holds ws wb) :
  Flushed ws ev
  := by
  have hwr := h.written
  rw [List.append_nil] at hwr
  have hkeys : wb.contents.map Prod.fst = wb.l2pMap.map Prod.fst := by
    simp [WriteBuffer.contents, Function.comp_def]
  constructor
  · rw [hwr, hkeys, List.pairwise_map]
    apply hwb.sorted
  · rw [hwr, hkeys]
    apply hwb.keys
  · intro x hx
    rw [hwr] at hx
    obtain ⟨y, hy, rfl⟩ := List.mem_map.mp hx
    apply hwb.latest y hy
  · apply h.mapped
  · apply h.beforeGc

/-- The state between two operations. -/
structure Writer.Inv (max : ℕ) (h : History δ) (s : Writer δ) : Prop where
  holds : Holds h.buffered s.wb
  map : s.userTempMap = []
  maxPsPtr : s.wb.maxPsPtr = max
  flushed : ∃ evs, s.events = evs.flatten ∧ List.Forall₂ Flushed h.flushed evs

variable {g : Geometry} {max minimumNumberMapSeg : ℕ}

/-- A write fills the buffer further, and flushes it when it is full. -/
theorem Writer.Inv.leaWrite {h : History δ} {s : Writer δ} (hs : s.Inv max h)
    (hmax : l2pgap ∣ max) (lba : ℕ) (data : δ) (turns : List Turn) :
  Meets (· ≠ Abort.notDivided) (Writer.Inv max (h.step max (.write lba data turns)))
    (s.leaWrite g minimumNumberMapSeg lba data turns)
  := by
  unfold Writer.leaWrite
  apply (meets_insert hs.holds lba data).bind
  rintro wb ⟨hwb, hmaxwb⟩
  rw [hs.maxPsPtr] at hmaxwb
  have hfull : wb.isfull = decide (distinct (h.buffered ++ [(lba, data)]) = max) := by
    rw [WriteBuffer.isfull, hwb.psPtr_eq, hmaxwb]
  obtain ⟨evs, hevs, hall⟩ := hs.flushed
  unfold History.step
  dsimp only
  by_cases hcard : distinct (h.buffered ++ [(lba, data)]) = max
  · rw [decide_eq_true hcard] at hfull
    rw [if_pos hcard, if_pos hfull]
    have hmid : MidFlush max s.events wb.contents { s with wb := wb } := by
      refine ⟨⟨[], (List.append_nil _).symm, flushing_start _⟩, hwb.pageBuf, hs.map, ?_, hmaxwb⟩
      simp only
      rw [← hwb.psPtr, hwb.psPtr_eq, hcard]
      apply hmax
    apply (meets_retry turns hmid).mono
    rintro s' ⟨ev, hev, hfl, hmap, hbuf, hnil, hzero, hmax'⟩
    refine ⟨?_, hmap, hmax', evs ++ [ev], ?_, ?_⟩
    · constructor
      · rw [hnil]
        apply List.Pairwise.nil
      · rw [hnil]
        simp
      · rw [hnil]
        simp
      · rw [hnil]
        apply List.nodup_nil
      · rw [hnil]
        simp
      · rw [hnil, hzero]
        rfl
      · apply hbuf
    · rw [hev, hevs, List.flatten_append, List.flatten_singleton]
    · apply List.rel_append hall (.cons (hfl.flushed hwb) .nil)
  · rw [decide_eq_false hcard] at hfull
    rw [if_neg hcard, if_neg (by rw [hfull]; exact Bool.false_ne_true)]
    use hwb, hs.map, hmaxwb, evs, hevs, hall

theorem Writer.inv_init (bytes : ℕ) (sectorBuffer : ℕ → δ) (pm : PageManager) :
  (Writer.init bytes sectorBuffer pm).Inv (bytes / pagesize * l2pgap) ⟨[], []⟩
  := by
  refine ⟨?_, rfl, rfl, [], rfl, .nil⟩
  constructor
  · apply List.Pairwise.nil
  · simp [Writer.init, WriteBuffer.init]
  · simp [Writer.init, WriteBuffer.init]
  · apply List.nodup_nil
  · simp [Writer.init, WriteBuffer.init]
  · rfl
  · rfl

/-- In every run, with any space at each flush, the abort on a size that is not a multiple of a
page is not reached, and whenever the buffer has been filled and cleared, each of its addresses
has been written once, in increasing order and with its last data, and has been put into the
mapping before any collection. -/
theorem flush_writesBuffer (g : Geometry) (minimumNumberMapSeg bytes : ℕ)
    (sectorBuffer : ℕ → δ) (pm : PageManager) (ops : List (Writer.Op δ)) :
  run (Writer.step g minimumNumberMapSeg) (Writer.init bytes sectorBuffer pm) ops
      ≠ .error .notDivided ∧
    ∀ s, run (Writer.step g minimumNumberMapSeg) (Writer.init bytes sectorBuffer pm) ops = .ok s →
      ∃ evs, s.events = evs.flatten ∧
        List.Forall₂ Flushed (history (bytes / pagesize * l2pgap) ops).flushed evs
  := by
  have hkeep : ∀ (ops : List (Writer.Op δ)) s op,
      Writer.Inv (bytes / pagesize * l2pgap) (history (bytes / pagesize * l2pgap) ops) s →
      Meets (· ≠ Abort.notDivided)
        (Writer.Inv (bytes / pagesize * l2pgap)
          (history (bytes / pagesize * l2pgap) (ops ++ [op])))
        (Writer.step g minimumNumberMapSeg s op) := by
    intro ops s op hs
    have hstep : history (bytes / pagesize * l2pgap) (ops ++ [op])
        = (history (bytes / pagesize * l2pgap) ops).step (bytes / pagesize * l2pgap) op := by
      simp only [history, List.foldl_append, List.foldl_cons, List.foldl_nil]
    rw [hstep]
    cases op with
    | write lba data turns => apply hs.leaWrite (Nat.dvd_mul_left _ _) lba data turns
    | other pm => exact ⟨hs.holds, hs.map, hs.maxPsPtr, hs.flushed⟩
  have hrun := meets_run_history _ hkeep (l := ops) (h := [])
    (Writer.inv_init bytes sectorBuffer pm)
  rw [List.nil_append] at hrun
  constructor
  · intro herr
    rw [herr] at hrun
    apply hrun rfl
  · intro s hs
    apply (hrun.of_ok hs).flushed

/-- A device of segments of one page, with the segment `active` active and the segments `free`
free. -/
def onePage (active : ℕ) (free : List ℕ) : PageManager :=
  { bm := { BlockManager.create ⟨1, 1, 4, Nat.one_pos, Nat.one_pos⟩ with freeSegmentQ := free }
    active := active }

/-- A buffer with eight places is filled, with the address 3 written twice.  Its first flush has
space for one page; a segment is collected, and the second one has space for the other page. -/
def fillTwice : List (Writer.Op ℕ) :=
  [7, 3, 5, 1, 9, 2, 8].map (fun lba => .write lba (10 * lba) []) ++
    [.write 3 31 [], .write 6 60 [⟨onePage 1 [], 1, onePage 2 []⟩, ⟨onePage 2 [], 1, onePage 3 []⟩]]

/-- The buffer is written in the order of the addresses, with the last data of the address 3. -/
theorem flush_writesBuffer_twice :
  ∃ s, run (Writer.step ⟨1, 1, 4, Nat.one_pos, Nat.one_pos⟩ 2)
      (Writer.init (2 * pagesize) (fun _ => 0) (onePage 1 [])) fillTwice = .ok s ∧
    (∃ evs, s.events = evs.flatten ∧
      List.Forall₂ Flushed (history (2 * pagesize / pagesize * l2pgap) fillTwice).flushed evs) ∧
    s.events = [.dataWrite 1 [(1, 10), (2, 20), (3, 31), (5, 50)],
      .mappingUpdate [(1, 4), (2, 5), (3, 6), (5, 7)], .gc,
      .dataWrite 2 [(6, 60), (7, 70), (8, 80), (9, 90)],
      .mappingUpdate [(6, 8), (7, 9), (8, 10), (9, 11)]]
  := by
  obtain ⟨s, h⟩ : ∃ s, run (Writer.step ⟨1, 1, 4, Nat.one_pos, Nat.one_pos⟩ 2)
      (Writer.init (2 * pagesize) (fun _ => 0) (onePage 1 [])) fillTwice = .ok s := ⟨_, rfl⟩
  use s, h, (flush_writesBuffer _ 2 (2 * pagesize) _ _ fillTwice).2 s h
  cases h
  rfl

end Runs

end LeaFtl

end AppL
