import Mathlib.Logic.Function.Basic
import Mathlib.Tactic.Ring
import AppL.Settings
import AppL.Lib.Transition

/-!
# The sequential block manager

The block manager hands out the pages of a segment one after another, keeps a validity
bit and an out-of-band entry for every piece of a page, counts validated and invalidated
pieces for every block and every segment, and keeps the segments in a queue of free ones
and a heap of possible victims.
-/

namespace AppL

open Transition

/-- The bookkeeping of a `__block`. -/
structure Block where
  nowAssignedPptr : ℕ
  validatePieceNum : ℕ
  invalidatePieceNum : ℕ
  isFullInvalid : Bool
  deriving DecidableEq, Repr

/-- The bookkeeping of a `__segment`. -/
structure Segment where
  nowAssignedBptr : ℕ
  usedPageNum : ℕ
  validatePieceNum : ℕ
  invalidatePieceNum : ℕ
  invalidBlockNum : ℤ
  deriving DecidableEq, Repr

/-- The state of the block manager.  The bitsets and the out-of-band areas of all blocks
are kept as one map from piece addresses. -/
structure BlockManager where
  block : ℕ → Block
  segment : ℕ → Segment
  bitset : ℕ → Bool
  oob : ℕ → ℕ
  freeSegmentQ : List ℕ
  maxHeap : List ℕ

/-- The pages of a segment, in the order of their addresses. -/
def Geometry.pages (g : Geometry) (s : ℕ) : List ℕ :=
  (List.range g.pps).map (s * g.pps + ·)

theorem Geometry.mem_pages (g : Geometry) (s p : ℕ) :
  p ∈ g.pages s ↔ p / g.pps = s
  := by
  have hpos := g.pps_pos
  simp only [pages, List.mem_map, List.mem_range]
  constructor
  · rintro ⟨i, hi, rfl⟩
    rw [Nat.add_comm, Nat.add_mul_div_right _ _ hpos, Nat.div_eq_of_lt hi, Nat.zero_add]
  · rintro rfl
    use p % g.pps
    constructor
    · apply Nat.mod_lt _ hpos
    · rw [Nat.mul_comm]
      apply Nat.div_add_mod

namespace BlockManager

variable (g : Geometry) (bm : BlockManager)

/-- The block manager after `sbm_create`: everything is clear and every segment is free. -/
def create : BlockManager where
  block _ := ⟨0, 0, 0, false⟩
  segment _ := ⟨0, 0, 0, 0, 0⟩
  bitset _ := false
  oob _ := 0
  freeSegmentQ := List.range g.nos
  maxHeap := []

/-! ### Validity bits -/

/-- The block bookkeeping of `sbm_bit_set`: `block_bit_set`, and the block is no longer
fully invalid. -/
def blockBitSet (b : Block) : Block :=
  let b := { b with validatePieceNum := b.validatePieceNum + 1 }
  if b.isFullInvalid = true ∧ b.invalidatePieceNum ≠ b.validatePieceNum then
    { b with isFullInvalid := false }
  else
    b

/-- The block bookkeeping of `sbm_bit_unset`: `block_bit_unset`, and the block becomes
fully invalid when the two counters meet. -/
def blockBitUnset (b : Block) : Block :=
  let b := { b with invalidatePieceNum := b.invalidatePieceNum + 1 }
  if b.isFullInvalid = false ∧ b.invalidatePieceNum = b.validatePieceNum then
    { b with isFullInvalid := true }
  else
    b

/-- The change of `invalid_block_num` when a block goes from `b` to `b'`. -/
def invalidBlockChange (b b' : Block) : ℤ :=
  (if b'.isFullInvalid then 1 else 0) - (if b.isFullInvalid then 1 else 0)

/-- `sbm_bit_set`: the bit of the piece is set and the counters of its block and of its
segment go up.  The result tells whether the bit was clear. -/
def bitSet (piecePpa : ℕ) : Bool × BlockManager :=
  let b := bm.block (g.bid piecePpa)
  let s := bm.segment (g.sid piecePpa)
  (!bm.bitset piecePpa,
    { bm with
      bitset := Function.update bm.bitset piecePpa true
      block := Function.update bm.block (g.bid piecePpa) (blockBitSet b)
      segment := Function.update bm.segment (g.sid piecePpa)
        { s with
          validatePieceNum := s.validatePieceNum + 1
          invalidBlockNum := s.invalidBlockNum + invalidBlockChange b (blockBitSet b) } })

/-- `sbm_bit_unset`: the bit of the piece is cleared and the counters of its block and of
its segment go up.  The result tells whether the bit was set. -/
def bitUnset (piecePpa : ℕ) : Bool × BlockManager :=
  let b := bm.block (g.bid piecePpa)
  let s := bm.segment (g.sid piecePpa)
  (bm.bitset piecePpa,
    { bm with
      bitset := Function.update bm.bitset piecePpa false
      block := Function.update bm.block (g.bid piecePpa) (blockBitUnset b)
      segment := Function.update bm.segment (g.sid piecePpa)
        { s with
          invalidatePieceNum := s.invalidatePieceNum + 1
          invalidBlockNum := s.invalidBlockNum + invalidBlockChange b (blockBitUnset b) } })

@[simp]
theorem bitSet_bitset (q : ℕ) :
  (bm.bitSet g q).2.bitset = Function.update bm.bitset q true
  := rfl

@[simp]
theorem bitSet_oob (q : ℕ) :
  (bm.bitSet g q).2.oob = bm.oob
  := rfl

@[simp]
theorem bitUnset_bitset (q : ℕ) :
  (bm.bitUnset g q).2.bitset = Function.update bm.bitset q false
  := rfl

/-- `sbm_set_oob`: the out-of-band entries of the first pieces of a page. -/
def setOob (lbas : List ℕ) (ppa : ℕ) : BlockManager :=
  { bm with
    oob := fun q =>
      if q / l2pgap = ppa then (lbas[q % l2pgap]?).getD (bm.oob q) else bm.oob q }

/-! ### Segments -/

/-- `sbm_get_seg` with `BLOCK_RESERVE`: the oldest free segment. -/
def getSegReserve : Except Abort (ℕ × BlockManager) :=
  match bm.freeSegmentQ with
  | [] => .error .noFreeSegment
  | s :: q => .ok (s, { bm with freeSegmentQ := q })

/-- `sbm_get_seg` with `BLOCK_ACTIVE`: the segment also becomes a possible victim. -/
def getSegActive : Except Abort (ℕ × BlockManager) :=
  match bm.freeSegmentQ with
  | [] => .error .noFreeSegment
  | s :: q => .ok (s, { bm with freeSegmentQ := q, maxHeap := bm.maxHeap ++ [s] })

/-- `default_check_full`: the last block of the segment has no page left. -/
def checkFull (s : ℕ) : Bool :=
  (bm.block (s * g.bps + (g.bps - 1))).nowAssignedPptr == g.ppb

/-- `sbm_get_page_addr`: the next page of the segment, or no page when it is full. -/
def getPageAddr (s : ℕ) : Except Abort (Option ℕ × BlockManager) :=
  let seg := bm.segment s
  if seg.nowAssignedBptr = g.bps - 1 ∧
      (bm.block (s * g.bps + (g.bps - 1))).nowAssignedPptr = g.ppb then
    .ok (none, bm)
  else
    let bptr :=
      if (bm.block (s * g.bps + seg.nowAssignedBptr)).nowAssignedPptr = g.ppb then
        seg.nowAssignedBptr + 1
      else
        seg.nowAssignedBptr
    let b := s * g.bps + bptr
    let page := (bm.block b).nowAssignedPptr
    let res := b * g.ppb + page
    if page > g.ppb ∨ seg.usedPageNum + 1 ≠ res % g.pps + 1 then
      .error .pageAddr
    else
      .ok (some res,
        { bm with
          block := Function.update bm.block b { bm.block b with nowAssignedPptr := page + 1 }
          segment := Function.update bm.segment s
            { seg with nowAssignedBptr := bptr, usedPageNum := seg.usedPageNum + 1 } })

/-- `sbm_pick_page_addr`: the page that would be the next, or `-1` as no page. -/
def pickPageAddr (s : ℕ) : Except Abort (Option ℕ) :=
  let seg := bm.segment s
  if seg.nowAssignedBptr = 0 ∧
      (bm.block (s * g.bps + (g.bps - 1))).nowAssignedPptr = g.ppb then
    .ok none
  else
    let b := s * g.bps + seg.nowAssignedBptr
    let page := (bm.block b).nowAssignedPptr
    if page > g.ppb then .error .pageAddr else .ok (some (b * g.ppb + page))

/-- `sbm_is_gc_needed`: no segment is free. -/
def isGcNeeded : Bool := bm.freeSegmentQ.isEmpty

/-- `blockmanager_full_invalid_check` of a block. -/
def fullInvalidCheck (b : Block) : Block :=
  if b.invalidatePieceNum ≠ 0 ∧ b.invalidatePieceNum = b.validatePieceNum then
    { b with isFullInvalid := true }
  else
    b

/-- `sbm_get_gc_target`: the heap gives a segment whose count `cnt` (`__mh_get_cnt`) is the
largest, `target`, and forgets it. -/
def getGcTarget (cnt : Segment → ℤ) (target : ℕ) : Except Abort BlockManager := do
  require .noGcTarget
    (target ∈ bm.maxHeap ∧ ∀ s ∈ bm.maxHeap, cnt (bm.segment s) ≤ cnt (bm.segment target))
  require .emptyGcTarget ((bm.segment target).validatePieceNum ≠ 0)
  return { bm with
    maxHeap := bm.maxHeap.erase target
    block := fun b => if b / g.bps = target then fullInvalidCheck (bm.block b) else bm.block b }

/-- `sbm_trim_segment`: the blocks of the segment are initialised again and it is free. -/
def trimSegment (s : ℕ) : BlockManager where
  block b := if b / g.bps = s then ⟨0, 0, 0, false⟩ else bm.block b
  segment := Function.update bm.segment s ⟨0, 0, 0, 0, 0⟩
  bitset q := if g.sid q = s then false else bm.bitset q
  oob q := if g.sid q = s then 0 else bm.oob q
  freeSegmentQ := bm.freeSegmentQ ++ [s]
  maxHeap := bm.maxHeap

/-- `sbm_change_reserve_to_active`: a reserve becomes a possible victim. -/
def changeReserveToActive (s : ℕ) : BlockManager :=
  { bm with maxHeap := bm.maxHeap ++ [s] }

/-- `sbm_insert_gc_target`: a segment that the heap has forgotten becomes a possible victim
again. -/
def insertGcTarget (s : ℕ) : BlockManager :=
  { bm with maxHeap := bm.maxHeap ++ [s] }

/-- `sbm_total_free_page_num`: the pages of the free segments, and those that are left in the
segment that is given. -/
def totalFreePageNum (s : Option ℕ) : ℕ :=
  bm.freeSegmentQ.length * g.pps +
    match s with
    | some s => g.pps - (bm.segment s).usedPageNum
    | none => 0

/-! ### Sequential assignment of pages -/

/-- The first `u` pages of segment `s` have been assigned, block after block. -/
structure Filled (s u : ℕ) : Prop where
  le : u ≤ g.pps
  used : (bm.segment s).usedPageNum = u
  bptr : (bm.segment s).nowAssignedBptr = (u - 1) / g.ppb
  pptr : ∀ j < g.bps, (bm.block (s * g.bps + j)).nowAssignedPptr = min g.ppb (u - j * g.ppb)

variable {g bm}

/-- The counters of pages do not depend on the bits, the queue and the heap. -/
theorem Filled.congr {bm' : BlockManager} {s u : ℕ} (h : Filled g bm s u)
    (hs : (bm'.segment s).usedPageNum = (bm.segment s).usedPageNum)
    (hb : (bm'.segment s).nowAssignedBptr = (bm.segment s).nowAssignedBptr)
    (hp : ∀ j < g.bps, (bm'.block (s * g.bps + j)).nowAssignedPptr
      = (bm.block (s * g.bps + j)).nowAssignedPptr) :
  Filled g bm' s u
  where
    le := h.le
    used := hs.trans h.used
    bptr := hb.trans h.bptr
    pptr j hj := (hp j hj).trans (h.pptr j hj)

theorem Filled.lastPptr {s u : ℕ} (h : Filled g bm s u) :
  (bm.block (s * g.bps + (g.bps - 1))).nowAssignedPptr = g.ppb ↔ u = g.pps
  := by
  have hb := g.bps_pos
  have hle := h.le
  rw [h.pptr (g.bps - 1) (by omega)]
  have hpps : g.pps = (g.bps - 1) * g.ppb + g.ppb := by
    rw [Geometry.pps, Nat.sub_mul, Nat.one_mul, Nat.mul_comm g.ppb g.bps]
    have := Nat.le_mul_of_pos_left g.ppb hb
    omega
  have := g.ppb_pos
  omega

/-- `default_check_full` tells whether all pages have been assigned. -/
theorem Filled.checkFull_iff {s u : ℕ} (h : Filled g bm s u) :
  checkFull g bm s = true ↔ u = g.pps
  := by
  rw [checkFull, beq_iff_eq]
  apply h.lastPptr

/-- The block that `sbm_get_page_addr` takes the next page from. -/
theorem Filled.nextBptr {s u : ℕ} (h : Filled g bm s u) (hu : u < g.pps) :
  (if (bm.block (s * g.bps + (bm.segment s).nowAssignedBptr)).nowAssignedPptr = g.ppb then
      (bm.segment s).nowAssignedBptr + 1
    else (bm.segment s).nowAssignedBptr) = u / g.ppb
  := by
  have hppb := g.ppb_pos
  rw [h.bptr]
  have hlt : (u - 1) / g.ppb < g.bps := by
    apply Nat.div_lt_of_lt_mul
    rw [Geometry.pps] at hu
    omega
  rw [h.pptr _ hlt]
  cases u with
  | zero =>
      have hne : ¬ min g.ppb (0 - (0 - 1) / g.ppb * g.ppb) = g.ppb := by
        simp only [Nat.zero_sub, Nat.min_zero]
        omega
      rw [if_neg hne]
  | succ v =>
      simp only [Nat.add_sub_cancel]
      have hdiv := Nat.div_add_mod v g.ppb
      have hmod := Nat.mod_lt v hppb
      rw [Nat.mul_comm] at hdiv
      rw [Nat.succ_div]
      by_cases hd : g.ppb ∣ v + 1
      · rw [if_pos hd, if_pos]
        have : (v + 1) % g.ppb = 0 := Nat.mod_eq_zero_of_dvd hd
        rw [← hdiv, Nat.add_assoc, Nat.mul_add_mod_self_right] at this
        have : g.ppb ∣ v % g.ppb + 1 := Nat.dvd_of_mod_eq_zero this
        have := Nat.le_of_dvd (by omega) this
        omega
      · rw [if_neg hd, if_neg, Nat.add_zero]
        intro hmin
        apply hd
        have : v + 1 = v / g.ppb * g.ppb + g.ppb := by omega
        rw [this]
        apply Nat.dvd_add (Nat.dvd_mul_left _ _) (Nat.dvd_refl _)

theorem div_bps (s j : ℕ) (hj : j < g.bps) :
  (s * g.bps + j) / g.bps = s
  := by
  rw [Nat.add_comm, Nat.add_mul_div_right _ _ g.bps_pos, Nat.div_eq_of_lt hj, Nat.zero_add]

variable (g bm) in
/-- The block manager after page `u` of segment `s` has been handed out. -/
def assignPage (s u : ℕ) : BlockManager :=
  { bm with
    block := Function.update bm.block (s * g.bps + u / g.ppb)
      { bm.block (s * g.bps + u / g.ppb) with nowAssignedPptr := u % g.ppb + 1 }
    segment := Function.update bm.segment s
      { bm.segment s with nowAssignedBptr := u / g.ppb, usedPageNum := u + 1 } }

theorem Filled.div_lt {s u : ℕ} (_ : Filled g bm s u) (hu : u < g.pps) :
  u / g.ppb < g.bps
  := Nat.div_lt_of_lt_mul hu

theorem Filled.nextPptr {s u : ℕ} (h : Filled g bm s u) (hu : u < g.pps) :
  (bm.block (s * g.bps + u / g.ppb)).nowAssignedPptr = u % g.ppb
  := by
  rw [h.pptr _ (h.div_lt hu)]
  have hdiv := Nat.div_add_mod u g.ppb
  have hmod := Nat.mod_lt u g.ppb_pos
  rw [Nat.mul_comm] at hdiv
  omega

/-- A full segment has no page to give. -/
theorem Filled.getPageAddr_full {s : ℕ} (h : Filled g bm s g.pps) :
  getPageAddr g bm s = .ok (none, bm)
  := by
  have hbptr : (bm.segment s).nowAssignedBptr = g.bps - 1 := by
    have hpos := g.ppb_pos
    have hb := g.bps_pos
    rw [h.bptr, Geometry.pps]
    apply Nat.div_eq_of_lt_le
    · rw [Nat.sub_mul, Nat.one_mul, Nat.mul_comm g.bps]
      omega
    · have : g.bps - 1 + 1 = g.bps := by omega
      rw [this, Nat.mul_comm g.bps]
      have := Nat.mul_pos hpos hb
      omega
  unfold getPageAddr
  rw [if_pos ⟨hbptr, h.lastPptr.mpr rfl⟩]

/-- A segment with `u` pages assigned hands out page `u`; no abort is reached. -/
theorem Filled.getPageAddr_next {s u : ℕ} (h : Filled g bm s u) (hu : u < g.pps) :
  getPageAddr g bm s = .ok (some (s * g.pps + u), assignPage g bm s u)
  := by
  have hlast : ¬ ((bm.segment s).nowAssignedBptr = g.bps - 1 ∧
      (bm.block (s * g.bps + (g.bps - 1))).nowAssignedPptr = g.ppb) := by
    rintro ⟨-, hl⟩
    have := h.lastPptr.mp hl
    omega
  have hmod := Nat.mod_lt u g.ppb_pos
  have hres : (s * g.bps + u / g.ppb) * g.ppb + u % g.ppb = s * g.pps + u := by
    have hdiv := Nat.div_add_mod u g.ppb
    rw [Geometry.pps, Nat.add_mul, Nat.mul_assoc, Nat.mul_comm g.bps, Nat.mul_comm (u / g.ppb)]
    omega
  have hused : ¬ (u % g.ppb > g.ppb ∨ u + 1 ≠ (s * g.pps + u) % g.pps + 1) := by
    rw [Nat.mul_add_mod_self_right, Nat.mod_eq_of_lt hu]
    omega
  unfold getPageAddr
  simp only [if_neg hlast, h.nextBptr hu, h.nextPptr hu, hres, h.used, if_neg hused]
  rfl

theorem Filled.assignPage {s u : ℕ} (h : Filled g bm s u) (hu : u < g.pps) :
  Filled g (bm.assignPage g s u) s (u + 1)
  where
    le := hu
    used := by simp [BlockManager.assignPage]
    bptr := by simp [BlockManager.assignPage]
    pptr j hj := by
      have hdiv := Nat.div_add_mod u g.ppb
      have hmod := Nat.mod_lt u g.ppb_pos
      rw [Nat.mul_comm] at hdiv
      simp only [BlockManager.assignPage, Function.update_apply]
      by_cases hji : j = u / g.ppb
      · rw [if_pos (by rw [hji])]
        subst hji
        simp only
        omega
      · rw [if_neg (by omega), h.pptr j hj]
        rcases Nat.lt_or_gt_of_ne hji with hlt | hgt
        · have := Nat.mul_le_mul_right g.ppb (Nat.succ_le_of_lt hlt)
          rw [Nat.succ_mul] at this
          omega
        · have := Nat.mul_le_mul_right g.ppb (Nat.succ_le_of_lt hgt)
          rw [Nat.succ_mul] at this
          omega

theorem Filled.assignPage_of_ne {s t u v : ℕ} (h : Filled g bm t v) (hne : t ≠ s)
    (hu : u < g.pps) :
  Filled g (bm.assignPage g s u) t v
  := by
  have hdiv : u / g.ppb < g.bps := Nat.div_lt_of_lt_mul hu
  apply h.congr
  · simp [BlockManager.assignPage, hne]
  · simp [BlockManager.assignPage, hne]
  · intro j hj
    have hb : t * g.bps + j ≠ s * g.bps + u / g.ppb := by
      intro heq
      apply hne
      rw [← div_bps t j hj, ← div_bps s _ hdiv, heq]
    simp [BlockManager.assignPage, hb]

/-! ### What the other operations leave alone -/

@[simp]
theorem blockBitSet_nowAssignedPptr (b : Block) :
  (blockBitSet b).nowAssignedPptr = b.nowAssignedPptr
  := by
  unfold blockBitSet
  simp only
  split
  · rfl
  · rfl

@[simp]
theorem blockBitUnset_nowAssignedPptr (b : Block) :
  (blockBitUnset b).nowAssignedPptr = b.nowAssignedPptr
  := by
  unfold blockBitUnset
  simp only
  split
  · rfl
  · rfl

@[simp]
theorem fullInvalidCheck_nowAssignedPptr (b : Block) :
  (fullInvalidCheck b).nowAssignedPptr = b.nowAssignedPptr
  := by
  unfold fullInvalidCheck
  split
  · rfl
  · rfl

theorem Filled.bitSet {s u : ℕ} (h : Filled g bm s u) (q : ℕ) :
  Filled g (bm.bitSet g q).2 s u
  := by
  apply h.congr
  · by_cases hs : s = g.sid q
    · simp [BlockManager.bitSet, hs]
    · simp [BlockManager.bitSet, hs]
  · by_cases hs : s = g.sid q
    · simp [BlockManager.bitSet, hs]
    · simp [BlockManager.bitSet, hs]
  · intro j _
    by_cases hb : s * g.bps + j = g.bid q
    · simp [BlockManager.bitSet, hb]
    · simp [BlockManager.bitSet, hb]

theorem Filled.bitUnset {s u : ℕ} (h : Filled g bm s u) (q : ℕ) :
  Filled g (bm.bitUnset g q).2 s u
  := by
  apply h.congr
  · by_cases hs : s = g.sid q
    · simp [BlockManager.bitUnset, hs]
    · simp [BlockManager.bitUnset, hs]
  · by_cases hs : s = g.sid q
    · simp [BlockManager.bitUnset, hs]
    · simp [BlockManager.bitUnset, hs]
  · intro j _
    by_cases hb : s * g.bps + j = g.bid q
    · simp [BlockManager.bitUnset, hb]
    · simp [BlockManager.bitUnset, hb]

theorem Filled.setOob {s u : ℕ} (h : Filled g bm s u) (lbas : List ℕ) (ppa : ℕ) :
  Filled g (bm.setOob lbas ppa) s u
  := h.congr rfl rfl fun _ _ => rfl

/-- A trimmed segment has no page assigned. -/
theorem filled_trimSegment (s : ℕ) :
  Filled g (bm.trimSegment g s) s 0
  where
    le := Nat.zero_le _
    used := by simp [trimSegment]
    bptr := by simp [trimSegment]
    pptr j hj := by simp [trimSegment, div_bps s j hj]

theorem Filled.trimSegment_of_ne {s t u : ℕ} (h : Filled g bm t u) (hne : t ≠ s) :
  Filled g (bm.trimSegment g s) t u
  := by
  apply h.congr
  · simp [trimSegment, hne]
  · simp [trimSegment, hne]
  · intro j hj
    simp [trimSegment, div_bps t j hj, hne]

/-- Every segment of a new block manager is empty. -/
theorem filled_create (s : ℕ) :
  Filled g (create g) s 0
  where
    le := Nat.zero_le _
    used := rfl
    bptr := by simp [create]
    pptr j _ := by simp [create]

end BlockManager

end AppL
