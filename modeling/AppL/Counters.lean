import Mathlib.Algebra.Order.BigOperators.Group.Finset
import Mathlib.Algebra.Order.Ring.Int
import Mathlib.Data.Finset.Card
import Mathlib.Data.Finset.Lattice.Basic
import Mathlib.Order.Interval.Finset.Nat
import AppL.Settings
import AppL.Lib.Transition

/-!
# The counters of blocks and segments

The counters of the block manager with the widths that they have in the code: a block counts
its pieces in 16 bits, a segment in 32.  `sbm_bit_set` and `sbm_bit_unset` keep
`invalid_block_num` up to date, and `sbm_get_gc_target` looks at all blocks of the victim again.
-/

namespace AppL

open Transition

/-- The counters of a `__block`. -/
structure CountedBlock where
  isFullInvalid : Bool
  invalidatePieceNum : UInt16
  validatePieceNum : UInt16
  deriving DecidableEq, Repr

/-- The counters of a `__segment`. -/
structure CountedSegment where
  validatePieceNum : UInt32
  invalidatePieceNum : UInt32
  invalidBlockNum : UInt32
  deriving DecidableEq, Repr

/-- A `__gsegment`, the victim of a garbage collection. -/
structure GcTarget where
  segIdx : ℕ
  invalidatePieceNum : UInt32
  validatePieceNum : UInt32
  allInvalid : Bool
  deriving DecidableEq, Repr

/-- The counters, and the bit of every piece. -/
structure Counters where
  block : ℕ → CountedBlock
  segment : ℕ → CountedSegment
  bitset : ℕ → Bool

namespace Counters

variable (g : Geometry) (c : Counters)

/-- The counters after `sbm_create`. -/
def create : Counters where
  block _ := ⟨false, 0, 0⟩
  segment _ := ⟨0, 0, 0⟩
  bitset _ := false

/-- The end of `sbm_bit_set`: a block whose counters differ is not fully invalid. -/
def endBitSet (b : CountedBlock) (s : CountedSegment) : CountedBlock × CountedSegment :=
  if b.isFullInvalid = true ∧ b.invalidatePieceNum ≠ b.validatePieceNum then
    ({ b with isFullInvalid := false },
      { s with
        invalidBlockNum := s.invalidBlockNum - 1
        validatePieceNum := s.validatePieceNum + 1 })
  else
    (b, { s with validatePieceNum := s.validatePieceNum + 1 })

/-- `block_bit_set` and the end of `sbm_bit_set`. -/
def bitSetCounters (b : CountedBlock) (s : CountedSegment) : CountedBlock × CountedSegment :=
  endBitSet { b with validatePieceNum := b.validatePieceNum + 1 } s

/-- `sbm_bit_set`. -/
def bitSet (piecePpa : ℕ) : Bool × Counters :=
  let bs := bitSetCounters (c.block (g.bid piecePpa)) (c.segment (g.sid piecePpa))
  (!c.bitset piecePpa,
    { block := Function.update c.block (g.bid piecePpa) bs.1
      segment := Function.update c.segment (g.sid piecePpa) bs.2
      bitset := Function.update c.bitset piecePpa true })

/-- The end of `sbm_bit_unset`: a block whose counters meet is fully invalid. -/
def endBitUnset (b : CountedBlock) (s : CountedSegment) : CountedBlock × CountedSegment :=
  if b.isFullInvalid = false ∧ b.invalidatePieceNum = b.validatePieceNum then
    ({ b with isFullInvalid := true },
      { s with
        invalidBlockNum := s.invalidBlockNum + 1
        invalidatePieceNum := s.invalidatePieceNum + 1 })
  else
    (b, { s with invalidatePieceNum := s.invalidatePieceNum + 1 })

/-- `block_bit_unset` and the end of `sbm_bit_unset`. -/
def bitUnsetCounters (b : CountedBlock) (s : CountedSegment) : CountedBlock × CountedSegment :=
  endBitUnset { b with invalidatePieceNum := b.invalidatePieceNum + 1 } s

/-- `sbm_bit_unset`. -/
def bitUnset (piecePpa : ℕ) : Bool × Counters :=
  let bs := bitUnsetCounters (c.block (g.bid piecePpa)) (c.segment (g.sid piecePpa))
  (c.bitset piecePpa,
    { block := Function.update c.block (g.bid piecePpa) bs.1
      segment := Function.update c.segment (g.sid piecePpa) bs.2
      bitset := Function.update c.bitset piecePpa false })

/-- `sbm_trim_segment`. -/
def trimSegment (s : ℕ) : Counters where
  block b := if b / g.bps = s then ⟨false, 0, 0⟩ else c.block b
  segment := Function.update c.segment s ⟨0, 0, 0⟩
  bitset q := if g.sid q = s then false else c.bitset q

/-- `blockmanager_full_invalid_check`. -/
def fullInvalidCheck (b : CountedBlock) : CountedBlock :=
  if b.invalidatePieceNum ≠ 0 ∧ b.invalidatePieceNum = b.validatePieceNum then
    { b with isFullInvalid := true }
  else
    b

/-- What `sbm_get_gc_target` tells of the segment that the heap has given. -/
def gcTarget (s : ℕ) : GcTarget :=
  { segIdx := s
    invalidatePieceNum := (c.segment s).invalidatePieceNum
    validatePieceNum := (c.segment s).validatePieceNum
    allInvalid := (c.segment s).invalidatePieceNum == (c.segment s).validatePieceNum }

/-- `sbm_get_gc_target`, where the heap gives the segment `s`. -/
def getGcTarget (s : ℕ) : Except Abort (GcTarget × Counters) := do
  require .emptyGcTarget ((c.segment s).validatePieceNum ≠ 0)
  return (c.gcTarget s,
    { c with
      block := fun b => if b / g.bps = s then fullInvalidCheck (c.block b) else c.block b })

end Counters

/-- The calls that change the counters. -/
inductive CounterOp where
  | bitSet (piecePpa : ℕ)
  | bitUnset (piecePpa : ℕ)
  | trimSegment (s : ℕ)
  | getGcTarget (s : ℕ)
  deriving DecidableEq, Repr

namespace Counters

/-- One call. -/
def step (g : Geometry) (c : Counters) : CounterOp → Except Abort Counters
  | .bitSet q => .ok (c.bitSet g q).2
  | .bitUnset q => .ok (c.bitUnset g q).2
  | .trimSegment s => .ok (c.trimSegment g s)
  | .getGcTarget s => do
      let (_, c) ← c.getGcTarget g s
      return c

/-- A bit is set when it is clear, and cleared when it is set. -/
def OnBit (c : Counters) : CounterOp → Prop
  | .bitSet q => c.bitset q = false
  | .bitUnset q => c.bitset q = true
  | _ => True

/-- A bit is not set when a counter of validated pieces of its block or of its segment has its
largest value. -/
def NotFull (g : Geometry) (c : Counters) : CounterOp → Prop
  | .bitSet q =>
      (c.block (g.bid q)).validatePieceNum.toNat ≠ 65535 ∧
      (c.segment (g.sid q)).validatePieceNum.toNat ≠ uint32Max
  | _ => True

instance decidableOnBit (c : Counters) : ∀ op, Decidable (c.OnBit op)
  | .bitSet q => inferInstanceAs (Decidable (c.bitset q = false))
  | .bitUnset q => inferInstanceAs (Decidable (c.bitset q = true))
  | .trimSegment _ => isTrue trivial
  | .getGcTarget _ => isTrue trivial

instance decidableNotFull (g : Geometry) (c : Counters) : ∀ op, Decidable (c.NotFull g op)
  | .bitSet q =>
      inferInstanceAs (Decidable ((c.block (g.bid q)).validatePieceNum.toNat ≠ 65535 ∧
        (c.segment (g.sid q)).validatePieceNum.toNat ≠ uint32Max))
  | .bitUnset _ => isTrue trivial
  | .trimSegment _ => isTrue trivial
  | .getGcTarget _ => isTrue trivial

/-! ### Numbers of bits and of blocks -/

/-- The pieces of a block. -/
def blockPieces (g : Geometry) (b : ℕ) : Finset ℕ :=
  (Finset.range (g.ppb * l2pgap)).image fun i => b * (g.ppb * l2pgap) + i

/-- The blocks of a segment. -/
def segmentBlocks (g : Geometry) (s : ℕ) : Finset ℕ :=
  (Finset.range g.bps).image fun i => s * g.bps + i

/-- The pieces of a segment. -/
def segmentPieces (g : Geometry) (s : ℕ) : Finset ℕ :=
  (segmentBlocks g s).biUnion (blockPieces g)

/-- The number of elements that are marked. -/
def marked (t : Finset ℕ) (p : ℕ → Bool) : ℕ := (t.filter fun x => p x = true).card

/-- The blocks of a segment that are fully invalid. -/
def fullInvalidBlocks (g : Geometry) (c : Counters) (s : ℕ) : ℕ :=
  marked (segmentBlocks g s) fun b => (c.block b).isFullInvalid

theorem mem_image_range {n : ℕ} (hn : 0 < n) (a x : ℕ) :
  x ∈ (Finset.range n).image (fun i => a * n + i) ↔ x / n = a
  := by
  simp only [Finset.mem_image, Finset.mem_range]
  constructor
  · rintro ⟨i, hi, rfl⟩
    rw [Nat.add_comm, Nat.add_mul_div_right _ _ hn, Nat.div_eq_of_lt hi, Nat.zero_add]
  · rintro rfl
    use x % n, Nat.mod_lt _ hn, by rw [Nat.mul_comm]; exact Nat.div_add_mod x n

variable {g : Geometry} {c : Counters}

@[simp]
theorem mem_blockPieces {b q : ℕ} :
  q ∈ blockPieces g b ↔ g.bid q = b
  := by
  have hpos : 0 < g.ppb * l2pgap := Nat.mul_pos g.ppb_pos (by decide)
  rw [blockPieces, mem_image_range hpos, Geometry.bid, Nat.div_div_eq_div_mul,
    Nat.mul_comm g.ppb]

@[simp]
theorem mem_segmentBlocks {s b : ℕ} :
  b ∈ segmentBlocks g s ↔ b / g.bps = s
  := mem_image_range g.bps_pos s b

@[simp]
theorem mem_segmentPieces {s q : ℕ} :
  q ∈ segmentPieces g s ↔ g.sid q = s
  := by
  simp [segmentPieces, Geometry.sid]

/-- Marking or unmarking one element. -/
theorem marked_update {t : Finset ℕ} {p : ℕ → Bool} {a : ℕ} (ha : a ∈ t) (x : Bool) :
  marked t (Function.update p a x) + (p a).toNat = marked t p + x.toNat
  := by
  have hsplit : ∀ r : ℕ → Bool, marked t r = marked (t.erase a) r + (r a).toNat := by
    intro r
    rw [marked, marked, ← Finset.insert_erase ha, Finset.filter_insert, Finset.erase_insert_eq_erase,
      Finset.erase_idem]
    cases hr : r a with
    | false => simp
    | true => simp
  have hrest : marked (t.erase a) (Function.update p a x) = marked (t.erase a) p := by
    rw [marked, marked]
    congr 1
    apply Finset.filter_congr
    intro y hy
    rw [Function.update_of_ne (Finset.ne_of_mem_erase hy)]
  rw [hsplit, hsplit p, hrest, Function.update_self]
  omega

/-- Elements that are marked in the same way. -/
theorem marked_congr {t : Finset ℕ} {p r : ℕ → Bool} (h : ∀ x ∈ t, p x = r x) :
  marked t p = marked t r
  := by
  rw [marked, marked]
  congr 1
  apply Finset.filter_congr
  intro x hx
  rw [h x hx]

theorem marked_eq_zero {t : Finset ℕ} {p : ℕ → Bool} :
  marked t p = 0 ↔ ∀ x ∈ t, p x = false
  := by
  rw [marked, Finset.card_eq_zero, Finset.filter_eq_empty_iff]
  simp

/-! ### What the counters say -/

/-- The counters of a block with `n` valid pieces. -/
structure BlockOk (b : CountedBlock) (n : ℕ) : Prop where
  pieces : b.validatePieceNum.toNat = b.invalidatePieceNum.toNat + n
  full : b.isFullInvalid = true ↔
    b.validatePieceNum = b.invalidatePieceNum ∧ 0 < b.validatePieceNum

/-- The counters of a segment with `n` valid pieces and `k` blocks that are fully invalid.  There
is an invalidated piece in each of these blocks. -/
structure SegmentOk (s : CountedSegment) (n k : ℕ) : Prop where
  pieces : s.validatePieceNum.toNat = s.invalidatePieceNum.toNat + n
  blocks : s.invalidBlockNum.toNat = k
  le : k ≤ s.invalidatePieceNum.toNat

theorem toNat_succ16 {v : UInt16} (h : v.toNat ≠ 65535) :
  (v + 1).toNat = v.toNat + 1
  := by
  have hlt := v.toNat_lt
  rw [UInt16.toNat_add]
  simp
  omega

theorem toNat_succ32 {v : UInt32} (h : v.toNat ≠ uint32Max) :
  (v + 1).toNat = v.toNat + 1
  := by
  have hlt := v.toNat_lt
  rw [UInt32.toNat_add]
  simp [uint32Max] at h ⊢
  omega

theorem toNat_pred32 {v : UInt32} (h : 0 < v.toNat) :
  (v - 1).toNat = v.toNat - 1
  := by
  have hlt := v.toNat_lt
  rw [UInt32.toNat_sub]
  simp
  omega

/-- A valid piece more. -/
theorem BlockOk.bitSet {b : CountedBlock} {s : CountedSegment} {n : ℕ} (h : BlockOk b n)
    (hv : b.validatePieceNum.toNat ≠ 65535) :
  BlockOk (bitSetCounters b s).1 (n + 1) ∧ (bitSetCounters b s).1.isFullInvalid = false
  := by
  obtain ⟨hp, hfull⟩ := h
  have hsucc := toNat_succ16 hv
  have hne : b.invalidatePieceNum ≠ b.validatePieceNum + 1 := by
    intro heq
    rw [heq, hsucc] at hp
    omega
  have hoff : (bitSetCounters b s).1 =
      ⟨false, b.invalidatePieceNum, b.validatePieceNum + 1⟩ := by
    cases hf : b.isFullInvalid with
    | false => simp [bitSetCounters, endBitSet, hf]
    | true => simp [bitSetCounters, endBitSet, hf, hne]
  rw [hoff]
  refine ⟨⟨?_, ?_⟩, rfl⟩
  · simp only [hsucc]
    omega
  · simp [hne.symm]

theorem SegmentOk.bitSet {b : CountedBlock} {s : CountedSegment} {n m k : ℕ} (h : SegmentOk s m k)
    (hb : BlockOk b n) (hbv : b.validatePieceNum.toNat ≠ 65535)
    (hv : s.validatePieceNum.toNat ≠ uint32Max) (hk : b.isFullInvalid.toNat ≤ k) :
  SegmentOk (bitSetCounters b s).2 (m + 1) (k - b.isFullInvalid.toNat)
  := by
  obtain ⟨hp, hblocks, hle⟩ := h
  have hsucc := toNat_succ32 hv
  have hne : b.invalidatePieceNum ≠ b.validatePieceNum + 1 := by
    intro heq
    have hbp := hb.pieces
    rw [heq, toNat_succ16 hbv] at hbp
    omega
  cases hf : b.isFullInvalid with
  | false =>
      simp only [bitSetCounters, endBitSet, hf]
      constructor
      · simp [hsucc]
        omega
      · simpa using hblocks
      · simpa using hle
  | true =>
      rw [hf] at hk
      have hk' : 1 ≤ k := hk
      have hpred := toNat_pred32 (v := s.invalidBlockNum) (by omega)
      simp only [bitSetCounters, endBitSet, hf, true_and, if_pos hne]
      constructor
      · simp [hsucc]
        omega
      · simp only [hpred, Bool.toNat_true]
        omega
      · simp only [Bool.toNat_true]
        omega

/-- A valid piece less. -/
theorem BlockOk.bitUnset {b : CountedBlock} {s : CountedSegment} {n : ℕ} (h : BlockOk b (n + 1)) :
  BlockOk (bitUnsetCounters b s).1 n ∧ b.isFullInvalid = false
  := by
  obtain ⟨hp, hfull⟩ := h
  have hlt := b.validatePieceNum.toNat_lt
  have hsucc := toNat_succ16 (v := b.invalidatePieceNum) (by omega)
  have hf : b.isFullInvalid = false := by
    rw [← Bool.not_eq_true, hfull]
    rintro ⟨heq, -⟩
    rw [heq] at hp
    omega
  have hpos : 0 < b.validatePieceNum := by
    rw [UInt16.lt_iff_toNat_lt, UInt16.toNat_zero]
    omega
  refine ⟨?_, hf⟩
  by_cases hmeet : b.invalidatePieceNum + 1 = b.validatePieceNum
  · simp only [bitUnsetCounters, endBitUnset, hf, true_and, if_pos hmeet]
    constructor
    · simp only [hsucc]
      omega
    · simp [hmeet, hpos]
  · simp only [bitUnsetCounters, endBitUnset, hf, true_and, if_neg hmeet]
    constructor
    · simp only [hsucc]
      omega
    · simp [Ne.symm hmeet]

theorem SegmentOk.bitUnset {b : CountedBlock} {s : CountedSegment} {m k : ℕ}
    (h : SegmentOk s (m + 1) k) (hf : b.isFullInvalid = false) :
  SegmentOk (bitUnsetCounters b s).2 m (k + (bitUnsetCounters b s).1.isFullInvalid.toNat)
  := by
  obtain ⟨hp, hblocks, hle⟩ := h
  have hlt := s.validatePieceNum.toNat_lt
  have hmax : s.invalidatePieceNum.toNat ≠ uint32Max := by
    unfold uint32Max
    omega
  have hsucc := toNat_succ32 hmax
  have hblock : s.invalidBlockNum.toNat ≠ uint32Max := by
    unfold uint32Max at hmax ⊢
    omega
  by_cases hmeet : b.invalidatePieceNum + 1 = b.validatePieceNum
  · simp only [bitUnsetCounters, endBitUnset, hf, true_and, if_pos hmeet]
    constructor
    · simp only [hsucc]
      omega
    · simp only [toNat_succ32 hblock, hblocks, Bool.toNat_true]
    · simp only [hsucc, Bool.toNat_true]
      omega
  · simp only [bitUnsetCounters, endBitUnset, hf, true_and, if_neg hmeet]
    constructor
    · simp only [hsucc]
      omega
    · simp only [hblocks, Bool.toNat_false, Nat.add_zero]
    · simp only [hsucc, Bool.toNat_false]
      omega

/-- A block without pieces. -/
theorem blockOk_zero :
  BlockOk ⟨false, 0, 0⟩ 0
  where
    pieces := rfl
    full := by decide

theorem segmentOk_zero :
  SegmentOk ⟨0, 0, 0⟩ 0 0
  where
    pieces := rfl
    blocks := rfl
    le := Nat.le_refl _

/-- Looking at a block again tells nothing new. -/
theorem BlockOk.fullInvalidCheck_eq {b : CountedBlock} {n : ℕ} (h : BlockOk b n) :
  fullInvalidCheck b = b
  := by
  unfold fullInvalidCheck
  split
  · rename_i hmeet
    have hf : b.isFullInvalid = true := by
      rw [h.full, ← hmeet.2]
      refine ⟨rfl, ?_⟩
      rw [UInt16.lt_iff_toNat_lt, UInt16.toNat_zero]
      apply Nat.pos_of_ne_zero
      intro hzero
      apply hmeet.1
      apply UInt16.toNat_inj.mp hzero
    rw [← hf]
  · rfl

/-- The counters of all blocks and segments. -/
structure Ok (g : Geometry) (c : Counters) : Prop where
  block : ∀ b, BlockOk (c.block b) (marked (blockPieces g b) c.bitset)
  segment : ∀ s,
    SegmentOk (c.segment s) (marked (segmentPieces g s) c.bitset) (fullInvalidBlocks g c s)

namespace Ok

theorem init :
  Ok g create
  where
    block b := by
      have hzero : marked (blockPieces g b) create.bitset = 0 :=
        marked_eq_zero.mpr fun _ _ => rfl
      rw [hzero]
      apply blockOk_zero
    segment s := by
      have hbits : marked (segmentPieces g s) create.bitset = 0 :=
        marked_eq_zero.mpr fun _ _ => rfl
      have hfull : fullInvalidBlocks g create s = 0 :=
        marked_eq_zero.mpr fun _ _ => rfl
      rw [hbits, hfull]
      apply segmentOk_zero

/-- One bit changes, with the counters of its block and of its segment. -/
theorem update (h : Ok g c) (q : ℕ) (x : Bool) {b : CountedBlock} {s : CountedSegment}
    (hb : ∀ n, n + (c.bitset q).toNat
      = marked (blockPieces g (g.bid q)) c.bitset + x.toNat → BlockOk b n)
    (hs : ∀ m k, m + (c.bitset q).toNat
        = marked (segmentPieces g (g.sid q)) c.bitset + x.toNat →
      k + (c.block (g.bid q)).isFullInvalid.toNat
        = fullInvalidBlocks g c (g.sid q) + b.isFullInvalid.toNat → SegmentOk s m k) :
  Ok g
    { block := Function.update c.block (g.bid q) b
      segment := Function.update c.segment (g.sid q) s
      bitset := Function.update c.bitset q x }
  where
    block b' := by
      rcases eq_or_ne b' (g.bid q) with rfl | hne
      · simp only [Function.update_self]
        apply hb _ (marked_update (mem_blockPieces.mpr rfl) x)
      · simp only [Function.update_of_ne hne]
        rw [marked_congr (t := blockPieces g b') (r := c.bitset)]
        · apply h.block b'
        · intro y hy
          apply Function.update_of_ne
          rintro rfl
          apply hne (mem_blockPieces.mp hy).symm
    segment s' := by
      have hflags : (fun b' => (Function.update c.block (g.bid q) b b').isFullInvalid)
          = Function.update (fun b' => (c.block b').isFullInvalid) (g.bid q) b.isFullInvalid :=
        Function.comp_update _ _ _ _
      simp only [fullInvalidBlocks, hflags]
      rcases eq_or_ne s' (g.sid q) with rfl | hne
      · simp only [Function.update_self]
        apply hs
        · apply marked_update (mem_segmentPieces.mpr rfl) x
        · apply marked_update (mem_segmentBlocks.mpr rfl) _
      · simp only [Function.update_of_ne hne]
        rw [marked_congr (t := segmentPieces g s') (r := c.bitset),
          marked_congr (t := segmentBlocks g s') (r := fun b' => (c.block b').isFullInvalid)]
        · apply h.segment s'
        · intro y hy
          apply Function.update_of_ne
          rintro rfl
          apply hne (mem_segmentBlocks.mp hy).symm
        · intro y hy
          apply Function.update_of_ne
          rintro rfl
          apply hne (mem_segmentPieces.mp hy).symm

theorem bitSet (h : Ok g c) {q : ℕ} (hon : c.bitset q = false)
    (hb : (c.block (g.bid q)).validatePieceNum.toNat ≠ 65535)
    (hs : (c.segment (g.sid q)).validatePieceNum.toNat ≠ uint32Max) :
  Ok g (c.bitSet g q).2
  := by
  have hblock := h.block (g.bid q)
  have hset := hblock.bitSet (s := c.segment (g.sid q)) hb
  have hmem : (c.block (g.bid q)).isFullInvalid.toNat ≤ fullInvalidBlocks g c (g.sid q) := by
    have hmark := marked_update (p := fun b => (c.block b).isFullInvalid)
      (mem_segmentBlocks (g := g) (b := g.bid q).mpr rfl) false
    rw [Bool.toNat_false] at hmark
    unfold fullInvalidBlocks
    apply (Nat.le_add_left _ _).trans hmark.le
  apply h.update
  · intro n hn
    rw [hon, Bool.toNat_false, Nat.add_zero, Bool.toNat_true] at hn
    rw [hn]
    apply hset.1
  · intro m k hm hk
    rw [hon, Bool.toNat_false, Nat.add_zero, Bool.toNat_true] at hm
    rw [hset.2, Bool.toNat_false, Nat.add_zero] at hk
    have hseg := (h.segment (g.sid q)).bitSet hblock hb hs hmem
    rw [hm, show k = fullInvalidBlocks g c (g.sid q) - (c.block (g.bid q)).isFullInvalid.toNat by
      omega]
    apply hseg

theorem bitUnset (h : Ok g c) {q : ℕ} (hon : c.bitset q = true) :
  Ok g (c.bitUnset g q).2
  := by
  apply h.update
  · intro n hn
    rw [hon, Bool.toNat_false, Nat.add_zero, Bool.toNat_true] at hn
    have hblock := h.block (g.bid q)
    rw [← hn] at hblock
    apply hblock.bitUnset.1
  · intro m k hm hk
    rw [hon, Bool.toNat_false, Nat.add_zero, Bool.toNat_true] at hm
    have hpiece : ∃ n, marked (blockPieces g (g.bid q)) c.bitset = n + 1 := by
      apply Nat.exists_eq_succ_of_ne_zero
      intro hzero
      have hq := marked_eq_zero.mp hzero q (mem_blockPieces.mpr rfl)
      rw [hon] at hq
      cases hq
    obtain ⟨n, hn⟩ := hpiece
    have hblock := h.block (g.bid q)
    rw [hn] at hblock
    have hf := (hblock.bitUnset (s := c.segment (g.sid q))).2
    rw [hf, Bool.toNat_false, Nat.add_zero] at hk
    have hseg := h.segment (g.sid q)
    rw [← hm] at hseg
    rw [hk]
    apply hseg.bitUnset hf

theorem trimSegment (h : Ok g c) (s : ℕ) :
  Ok g (c.trimSegment g s)
  where
    block b := by
      by_cases hb : b / g.bps = s
      · have hbits : marked (blockPieces g b) (c.trimSegment g s).bitset = 0 := by
          apply marked_eq_zero.mpr
          intro q hq
          have hbid : g.bid q = b := mem_blockPieces.mp hq
          have hsid : g.sid q = s := by rw [Geometry.sid, hbid, hb]
          apply if_pos hsid
        rw [hbits]
        simp only [Counters.trimSegment, if_pos hb]
        apply blockOk_zero
      · have hbits : marked (blockPieces g b) (c.trimSegment g s).bitset
            = marked (blockPieces g b) c.bitset := by
          apply marked_congr
          intro q hq
          have hbid : g.bid q = b := mem_blockPieces.mp hq
          have hsid : ¬ g.sid q = s := by rwa [Geometry.sid, hbid]
          apply if_neg hsid
        rw [hbits]
        simp only [Counters.trimSegment, if_neg hb]
        apply h.block b
    segment t := by
      rcases eq_or_ne t s with rfl | hne
      · have hbits : marked (segmentPieces g t) (c.trimSegment g t).bitset = 0 := by
          apply marked_eq_zero.mpr
          intro q hq
          apply if_pos (mem_segmentPieces.mp hq)
        have hfull : fullInvalidBlocks g (c.trimSegment g t) t = 0 := by
          apply marked_eq_zero.mpr
          intro b hb
          simp only [Counters.trimSegment, if_pos (mem_segmentBlocks.mp hb)]
        rw [hbits, hfull]
        simp only [Counters.trimSegment, Function.update_self]
        apply segmentOk_zero
      · have hbits : marked (segmentPieces g t) (c.trimSegment g s).bitset
            = marked (segmentPieces g t) c.bitset := by
          apply marked_congr
          intro q hq
          have hsid : ¬ g.sid q = s := by rwa [mem_segmentPieces.mp hq]
          apply if_neg hsid
        have hfull : fullInvalidBlocks g (c.trimSegment g s) t = fullInvalidBlocks g c t := by
          apply marked_congr
          intro b hb
          have hdiv : ¬ b / g.bps = s := by rwa [mem_segmentBlocks.mp hb]
          simp only [Counters.trimSegment, if_neg hdiv]
        rw [hbits, hfull]
        simp only [Counters.trimSegment, Function.update_of_ne hne]
        apply h.segment t

/-- Choosing a victim changes nothing. -/
theorem getGcTarget_eq (h : Ok g c) {s : ℕ} {t : GcTarget} {c' : Counters}
    (hs : c.getGcTarget g s = .ok (t, c')) :
  t = c.gcTarget s ∧ c' = c
  := by
  obtain ⟨-, -, hs⟩ := bind_eq_ok.mp hs
  cases hs
  refine ⟨rfl, ?_⟩
  have hblock : (fun b => if b / g.bps = s then fullInvalidCheck (c.block b) else c.block b)
      = c.block := by
    funext b
    split
    · apply (h.block b).fullInvalidCheck_eq
    · rfl
  rw [hblock]

/-- One call. -/
theorem step (h : Ok g c) {op : CounterOp} {c' : Counters} (hon : c.OnBit op)
    (hfull : c.NotFull g op) (hs : c.step g op = .ok c') :
  Ok g c'
  := by
  cases op with
  | bitSet q =>
      cases hs
      apply h.bitSet hon hfull.1 hfull.2
  | bitUnset q =>
      cases hs
      apply h.bitUnset hon
  | trimSegment s =>
      cases hs
      apply h.trimSegment s
  | getGcTarget s =>
      obtain ⟨⟨t, c''⟩, ht, hs⟩ := bind_eq_ok.mp hs
      cases hs
      rw [(h.getGcTarget_eq ht).2]
      apply h

end Ok

/-- The flag of a victim without valid pieces. -/
theorem Ok.allInvalid_iff (h : Ok g c) (s : ℕ) :
  (c.gcTarget s).allInvalid = true ↔ ∀ q, g.sid q = s → c.bitset q = false
  := by
  have hp := (h.segment s).pieces
  have hzero : (c.segment s).invalidatePieceNum = (c.segment s).validatePieceNum
      ↔ marked (segmentPieces g s) c.bitset = 0 := by
    rw [← UInt32.toNat_inj]
    omega
  rw [gcTarget, beq_iff_eq, hzero, marked_eq_zero]
  simp only [mem_segmentPieces]

/-- In every run in which bits are set when they are clear, cleared when they are set, and not set
when a counter of validated pieces has its largest value, the counters say how many pieces are
valid, which blocks are fully invalid and how many these are, and the victims without valid pieces
are told. -/
theorem counters_run {ops : List CounterOp} (hr : run (step g) create ops = .ok c)
    (hops : Guarded (step g) (fun c op => c.OnBit op ∧ c.NotFull g op) create ops) :
  (∀ b,
    (c.block b).validatePieceNum.toNat
      = (c.block b).invalidatePieceNum.toNat + marked (blockPieces g b) c.bitset ∧
    ((c.block b).isFullInvalid = true ↔
      (c.block b).validatePieceNum = (c.block b).invalidatePieceNum ∧
      0 < (c.block b).validatePieceNum)) ∧
  ∀ s,
    (c.segment s).validatePieceNum.toNat
      = (c.segment s).invalidatePieceNum.toNat + marked (segmentPieces g s) c.bitset ∧
    (c.segment s).invalidBlockNum.toNat = fullInvalidBlocks g c s ∧
    ∀ t c', c.getGcTarget g s = .ok (t, c') →
      (t.allInvalid = true ↔ ∀ q, g.sid q = s → c.bitset q = false)
  := by
  have h : Ok g c := by
    apply run_preserves (Ok g) _ Ok.init hops hr
    intro c op c' h hop hs
    apply h.step hop.1 hop.2 hs
  constructor
  · intro b
    exact ⟨(h.block b).pieces, (h.block b).full⟩
  · intro s
    use (h.segment s).pieces, (h.segment s).blocks
    intro t c' ht
    rw [(h.getGcTarget_eq ht).1]
    apply h.allInvalid_iff s

/-- A device with two blocks of a page in a segment. -/
def twoBlocks : Geometry := ⟨1, 2, 2, Nat.one_pos, Nat.two_pos⟩

/-- A block that becomes fully invalid, is written again and becomes fully invalid once more. -/
theorem counters_run_twice :
  ∃ c, run (step twoBlocks) create
      [.bitSet 0, .bitUnset 0, .bitSet 1, .getGcTarget 0, .bitUnset 1] = .ok c ∧
    (c.block 0).validatePieceNum.toNat
      = (c.block 0).invalidatePieceNum.toNat + marked (blockPieces twoBlocks 0) c.bitset ∧
    (c.segment 0).invalidBlockNum.toNat = fullInvalidBlocks twoBlocks c 0
  := by
  refine ⟨_, rfl, ?_⟩
  have h := @counters_run twoBlocks _ [.bitSet 0, .bitUnset 0, .bitSet 1, .getGcTarget 0, .bitUnset 1]
    rfl (by decide)
  exact ⟨(h.1 0).1, (h.2 0).2.1⟩

/-! ### When a counter is at its end -/

/-- The counters when only one block and its segment have been used, and one piece. -/
def lone (b : CountedBlock) (s : CountedSegment) (x : Bool) : Counters where
  block := Function.update create.block 0 b
  segment := Function.update create.segment 0 s
  bitset := Function.update create.bitset 0 x

theorem bid_zero (g : Geometry) :
  g.bid 0 = 0
  := by
  rw [Geometry.bid, Nat.zero_div, Nat.zero_div]

theorem sid_zero (g : Geometry) :
  g.sid 0 = 0
  := by
  rw [Geometry.sid, bid_zero, Nat.zero_div]

theorem lone_bitSet (b : CountedBlock) (s : CountedSegment) (x : Bool) :
  step g (lone b s x) (.bitSet 0)
    = .ok (lone (bitSetCounters b s).1 (bitSetCounters b s).2 true)
  := by
  simp [step, bitSet, lone, bid_zero, sid_zero]

theorem lone_bitUnset (b : CountedBlock) (s : CountedSegment) (x : Bool) :
  step g (lone b s x) (.bitUnset 0)
    = .ok (lone (bitUnsetCounters b s).1 (bitUnsetCounters b s).2 false)
  := by
  simp [step, bitUnset, lone, bid_zero, sid_zero]

/-- A piece is validated and invalidated, again and again. -/
def rounds : ℕ → List CounterOp
  | 0 => []
  | n + 1 => .bitSet 0 :: .bitUnset 0 :: rounds n

/-- A round leaves a fully invalid block, whose two counters are one higher. -/
theorem bitUnsetCounters_bitSetCounters (f : Bool) (v : UInt16) (s : CountedSegment) :
  (bitUnsetCounters (bitSetCounters ⟨f, v, v⟩ s).1 (bitSetCounters ⟨f, v, v⟩ s).2).1
    = ⟨true, v + 1, v + 1⟩
  := by
  have hne : v ≠ v + 1 := by
    intro heq
    have hv : v.toNat = (v + 1).toNat := by rw [← heq]
    have hlt := v.toNat_lt
    rw [UInt16.toNat_add] at hv
    simp at hv
    omega
  cases f with
  | false => simp [bitSetCounters, endBitSet, bitUnsetCounters, endBitUnset]
  | true => simp [bitSetCounters, endBitSet, bitUnsetCounters, endBitUnset, hne]

theorem run_rounds (n : ℕ) :
  ∀ (f : Bool) (v : UInt16) (s : CountedSegment), ∃ f' s',
    run (step g) (lone ⟨f, v, v⟩ s false) (rounds n)
      = .ok (lone ⟨f', v + UInt16.ofNat n, v + UInt16.ofNat n⟩ s' false) ∧
    Guarded (step g) OnBit (lone ⟨f, v, v⟩ s false) (rounds n) ∧
    (n ≠ 0 ∨ f = true → f' = true)
  := by
  induction n with
  | zero =>
      intro f v s
      refine ⟨f, s, ?_, trivial, ?_⟩
      · simp [rounds, run]
      · rintro (h | h)
        · exact absurd rfl h
        · apply h
  | succ n ih =>
      intro f v s
      have hround := bitUnsetCounters_bitSetCounters f v s
      obtain ⟨f', s', hrun, hguard, hf⟩ := ih true (v + 1)
        (bitUnsetCounters (bitSetCounters ⟨f, v, v⟩ s).1 (bitSetCounters ⟨f, v, v⟩ s).2).2
      rw [← hround] at hrun hguard
      refine ⟨f', s', ?_, ?_, ?_⟩
      · have hadd : v + UInt16.ofNat (n + 1) = v + 1 + UInt16.ofNat n := by
          rw [UInt16.ofNat_add, UInt16.add_comm (UInt16.ofNat n), ← UInt16.add_assoc]
          rfl
        rw [hadd]
        apply run_cons_eq_ok.mpr
        refine ⟨_, lone_bitSet _ _ _, ?_⟩
        apply run_cons_eq_ok.mpr
        exact ⟨_, lone_bitUnset _ _ _, hrun⟩
      · simp only [rounds, Guarded, lone_bitSet, lone_bitUnset]
        refine ⟨?_, ?_, hguard⟩
        · simp [OnBit, lone]
        · simp [OnBit, lone]
      · intro _
        apply hf (Or.inr rfl)

/-- After as many rounds as a counter of a block has values, the block is told to be fully invalid
and its counters are zero. -/
theorem full_invalid_without_pieces :
  ∃ c, run (step twoBlocks) create (rounds 65536) = .ok c ∧
    Guarded (step twoBlocks) OnBit create (rounds 65536) ∧
    (c.block 0).isFullInvalid = true ∧ (c.block 0).validatePieceNum = 0
  := by
  have hcreate : lone ⟨false, 0, 0⟩ ⟨0, 0, 0⟩ false = create := by
    have hblock : Function.update create.block 0 ⟨false, 0, 0⟩ = create.block :=
      Function.update_eq_self 0 create.block
    have hsegment : Function.update create.segment 0 ⟨0, 0, 0⟩ = create.segment :=
      Function.update_eq_self 0 create.segment
    have hbitset : Function.update create.bitset 0 false = create.bitset :=
      Function.update_eq_self 0 create.bitset
    rw [lone, hblock, hsegment, hbitset]
  obtain ⟨f, s, hrun, hguard, hf⟩ := run_rounds (g := twoBlocks) 65536 false 0 ⟨0, 0, 0⟩
  rw [hcreate] at hrun hguard
  refine ⟨_, hrun, hguard, ?_, ?_⟩
  · simp only [lone, Function.update_self]
    apply hf (Or.inl (by decide))
  · simp only [lone, Function.update_self]
    decide

end Counters

end AppL
