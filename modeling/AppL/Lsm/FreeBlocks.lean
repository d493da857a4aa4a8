import AppL.Lsm.BlockTable

/-!
# The estimate of the free blocks

`L2PBm_get_free_block_num` tells the compaction how many blocks are left before a garbage
collection.  It is compared with the number of calls of `L2PBm_pick_empty_PBA` in a row that
start no garbage collection.
-/

namespace AppL

open Transition

namespace L2pBm

variable {g : Geometry} {b : L2pBm} {seg : Option ℕ} {blk : ℕ}

/-! ### Blocks without a garbage collection -/

/-- The next call of `L2PBm_pick_empty_PBA` starts with a garbage collection. -/
def startsGc (b : L2pBm) : Bool := b.nowSegIdx.isNone && b.pool.bm.isGcNeeded

/-- In `n` calls in a row `L2PBm_pick_empty_PBA` hands out a block, and none of them starts a
garbage collection. -/
def HandsOut (g : Geometry) : ℕ → L2pBm → Prop
  | 0, _ => True
  | n + 1, b => b.startsGc = false ∧
      ∃ pba b', b.pickEmptyPba g = .ok (pba, b') ∧ HandsOut g n b'

/-- The free segments and the blocks that are left in the data segment. -/
def blocksLeft (g : Geometry) (b : L2pBm) : ℕ :=
  b.pool.bm.freeSegmentQ.length * g.bps + if b.nowSegIdx = none then 0 else g.bps - b.nowBlockIdx

/-- Between two calls there is no data segment, because none has been opened or because the last
one is full, or it has a block left. -/
structure Settled (g : Geometry) (b : L2pBm) : Prop where
  reserve : b.reserveBlockIdx ≤ g.bps
  closed : b.nowSegIdx = none → b.nowBlockIdx = 0 ∨ b.nowBlockIdx = g.bps
  opened : ∀ s, b.nowSegIdx = some s → b.nowBlockIdx < g.bps

/-- A block of the open segment. -/
theorem pickEmptyPba_open {s : ℕ} (hs : b.nowSegIdx = some s) :
  b.pickEmptyPba g = .ok (s * g.pps + b.nowBlockIdx * g.ppb,
    { b with
      nowSegIdx := if b.nowBlockIdx + 1 = g.bps then .none else .some s
      nowBlockIdx := b.nowBlockIdx + 1 })
  := by
  have hready : b.readyData g = .ok b := by
    rw [readyData, hs]
    rfl
  rw [pickEmptyPba, hready]
  simp only [hs, orThrow, bind, Except.bind]
  rfl

/-- A free segment is opened. -/
theorem openData_free {s : ℕ} {q : List ℕ} (hq : b.pool.bm.freeSegmentQ = s :: q) :
  ∃ b₁, b.openData g = .ok b₁ ∧ b₁.nowSegIdx = some s ∧ b₁.nowBlockIdx = 0 ∧
    b₁.reserveBlockIdx = b.reserveBlockIdx ∧ b₁.pool.bm.freeSegmentQ = q
  := by
  unfold openData getSegment call
  simp only [hq, List.head?_cons, orThrow, SegmentPool.step, BlockManager.getSegActive, bind,
    Except.bind]
  exact ⟨_, rfl, rfl, rfl, rfl, rfl⟩

/-- The first block of a free segment. -/
theorem pickEmptyPba_free {s : ℕ} {q : List ℕ} (hs : b.nowSegIdx = none)
    (hq : b.pool.bm.freeSegmentQ = s :: q) :
  ∃ b₁ : L2pBm, b₁.nowSegIdx = some s ∧ b₁.nowBlockIdx = 0 ∧
    b₁.reserveBlockIdx = b.reserveBlockIdx ∧ b₁.pool.bm.freeSegmentQ = q ∧
    b.pickEmptyPba g = b₁.pickEmptyPba g
  := by
  obtain ⟨b₁, hopen, hs₁, hblk₁, hres₁, hq₁⟩ := openData_free (g := g) hq
  use b₁, hs₁, hblk₁, hres₁, hq₁
  have hgc : b.pool.bm.isGcNeeded = false := by
    rw [BlockManager.isGcNeeded, hq]
    rfl
  have hready : b.readyData g = .ok b₁ := by
    simp only [readyData, hs, hgc, hopen, Option.isSome_none, Bool.false_eq_true, if_false]
  have hready₁ : b₁.readyData g = .ok b₁ := by
    rw [readyData, hs₁]
    rfl
  rw [pickEmptyPba, pickEmptyPba, hready, hready₁]

theorem Settled.pick_open {s : ℕ} (h : b.Settled g) (hs : b.nowSegIdx = some s) :
  ∃ pba b', b.pickEmptyPba g = .ok (pba, b') ∧ b'.Settled g ∧
    b.blocksLeft g = b'.blocksLeft g + 1
  := by
  have hlt := h.opened s hs
  refine ⟨_, _, pickEmptyPba_open hs, ⟨h.reserve, ?_, ?_⟩, ?_⟩
  · intro hnone
    right
    by_contra hne
    rw [if_neg hne] at hnone
    cases hnone
  · intro t ht
    split at ht
    · cases ht
    · dsimp only
      omega
  · simp only [blocksLeft, hs, reduceCtorEq, if_false]
    split
    · simp only [if_true]
      omega
    · simp only [reduceCtorEq, if_false]
      omega

/-- The blocks that are handed out are those of the free segments and of the data segment. -/
theorem handsOut_iff (n : ℕ) :
  ∀ {b : L2pBm}, b.Settled g → (HandsOut g n b ↔ n ≤ b.blocksLeft g)
  := by
  induction n with
  | zero =>
      intro b _
      apply iff_of_true trivial (Nat.zero_le _)
  | succ n ih =>
      intro b h
      have hopen : ∀ b₁ : L2pBm, b₁.Settled g → b₁.nowSegIdx ≠ none →
          ((∃ pba b', b₁.pickEmptyPba g = .ok (pba, b') ∧ HandsOut g n b') ↔
            n + 1 ≤ b₁.blocksLeft g) := by
        intro b₁ h₁ hs₁
        obtain ⟨s, hs⟩ := Option.ne_none_iff_exists'.mp hs₁
        obtain ⟨pba, b', hpick, h', hleft⟩ := h₁.pick_open hs
        rw [hleft, Nat.add_le_add_iff_right, ← ih h']
        constructor
        · rintro ⟨pba', b'', hpick', hout⟩
          rw [hpick] at hpick'
          cases hpick'
          apply hout
        · intro hout
          use pba, b', hpick, hout
      cases hs : b.nowSegIdx with
      | some s =>
          rw [← hopen b h (by rw [hs]; nofun)]
          simp only [HandsOut, startsGc, hs, Option.isNone_some, Bool.false_and, true_and]
      | none =>
          cases hq : b.pool.bm.freeSegmentQ with
          | nil =>
              have hgc : b.startsGc = true := by
                rw [startsGc, hs, BlockManager.isGcNeeded, hq]
                rfl
              apply iff_of_false
              · rintro ⟨hno, -⟩
                rw [hgc] at hno
                cases hno
              · simp [blocksLeft, hs, hq]
          | cons s q =>
              obtain ⟨b₁, hs₁, hblk₁, hres₁, hq₁, hpick⟩ := pickEmptyPba_free (g := g) hs hq
              have hgc : b.startsGc = false := by
                rw [startsGc, BlockManager.isGcNeeded, hq]
                apply Bool.and_false _
              have h₁ : b₁.Settled g := by
                refine ⟨hres₁ ▸ h.reserve, ?_, ?_⟩
                · intro hnone
                  left
                  apply hblk₁
                · intro t _
                  rw [hblk₁]
                  apply g.bps_pos
              have hleft : b.blocksLeft g = b₁.blocksLeft g := by
                simp only [blocksLeft, hs, hs₁, hq, hq₁, hblk₁, reduceCtorEq, if_true, if_false,
                  List.length_cons, Nat.succ_mul]
                omega
              rw [hleft, ← hopen b₁ h₁ (by rw [hs₁]; nofun), ← hpick]
              simp only [HandsOut, hgc, true_and]

/-! ### What leaves the data segment alone -/

/-- The place from which the next block is taken, and a reserve that is not overfull. -/
structure Stays (g : Geometry) (seg : Option ℕ) (blk : ℕ) (b : L2pBm) : Prop where
  seg : b.nowSegIdx = seg
  blk : b.nowBlockIdx = blk
  reserve : b.reserveBlockIdx ≤ g.bps

theorem call_stays (op : SegmentOp) (h : b.Stays g seg blk) :
  Meets (fun _ => True) (Stays g seg blk) (b.call g op)
  := by
  unfold call
  cases b.pool.step g g.heapCnt op with
  | error e => trivial
  | ok p => use h.seg, h.blk, h.reserve

theorem getSegment_stays (use : SegUse) (h : b.Stays g seg blk) :
  Meets (fun _ => True) (fun x => Stays g seg blk x.2) (b.getSegment g use)
  := by
  apply (meets_orThrow fun _ => trivial).bind
  intro s _
  apply (call_stays _ h).bind
  intro b' hb'
  apply hb'

theorem getGcTarget_stays (h : b.Stays g seg blk) :
  Meets (fun _ => True) (fun x => Stays g seg blk x.2) (b.getGcTarget g)
  := by
  unfold getGcTarget
  split
  · apply h
  · split
    · trivial
    · rename_i t victims _
      have hb : Stays g seg blk { b with victims := victims } := ⟨h.seg, h.blk, h.reserve⟩
      apply (call_stays _ hb).bind
      intro b' hb'
      apply hb'

theorem getPageAddr_stays (s : ℕ) (h : b.Stays g seg blk) :
  Meets (fun _ => True) (fun x => Stays g seg blk x.2) (b.getPageAddr g s)
  := by
  unfold getPageAddr
  cases b.pool.bm.getPageAddr g s with
  | error e => trivial
  | ok x =>
      apply (meets_orThrow fun _ => trivial).bind
      intro page _
      apply (call_stays _ h).bind
      intro b' hb'
      apply hb'

theorem validatePiecePpa_stays (q : ℕ) (h : b.Stays g seg blk) :
  Meets (fun _ => True) (Stays g seg blk) (b.validatePiecePpa g q)
  := by
  apply (meets_require trivial).bind
  intro _ _
  apply call_stays _ h

theorem invalidatePiecePpa_stays (q : ℕ) (h : b.Stays g seg blk) :
  Meets (fun _ => True) (Stays g seg blk) (b.invalidatePiecePpa g q)
  := by
  apply (meets_require trivial).bind
  intro _ _
  apply call_stays _ h

theorem makeMap_stays {pba sid idx : ℕ} (h : b.Stays g seg blk) :
  Meets (fun _ => True) (Stays g seg blk) (b.makeMap g pba sid idx)
  := by
  apply (meets_require trivial).bind
  intro _ _
  use h.seg, h.blk, h.reserve

theorem moveOwner_stays {pba sid idx : ℕ} (h : b.Stays g seg blk) :
  Meets (fun _ => True) (Stays g seg blk) (b.moveOwner g pba sid idx)
  := by
  apply (meets_require trivial).bind
  intro _ _
  apply (meets_require trivial).bind
  intro _ _
  use h.seg, h.blk, h.reserve

/-- The reserve hands out at most all of its blocks. -/
theorem pickEmptyRpba_stays (h : b.Stays g seg blk) :
  Meets (fun _ => True) (fun x => Stays g seg blk x.2) (b.pickEmptyRpba g)
  := by
  apply (meets_require trivial).bind
  intro _ hne
  have hle := h.reserve
  use h.seg, h.blk
  dsimp only
  omega

theorem getMapRppa_stays (h : b.Stays g seg blk) :
  Meets (fun _ => True) (fun x => Stays g seg blk x.2) (b.getMapRppa g)
  := by
  apply (meets_require trivial).bind
  intro _ _
  apply (getPageAddr_stays _ h).bind
  intro x hx
  use hx.seg, hx.blk, hx.reserve

theorem clear_stays (t : ℕ) (h : b.Stays g seg blk) :
  Meets (fun _ => True) (Stays g seg blk) (b.clearBlockAndGsegment g t)
  := call_stays _ ⟨h.seg, h.blk, h.reserve⟩

/-! ### Summary segments -/

variable {getPpa : L2pBm → Except Abort (ℕ × L2pBm)}

theorem issueWrite_stays (page : GcPage) (h : b.Stays g seg blk) :
  Meets (fun _ => True) (Stays g seg blk) (b.issueWrite g page)
  := by
  unfold issueWrite
  split
  · apply h
  · apply call_stays _ h

theorem moveSummaryPiece_stays
    (hget : ∀ b, b.Stays g seg blk → Meets (fun _ => True) (fun x => Stays g seg blk x.2) (getPpa b))
    {x : L2pBm × GcPage} (hx : x.1.Stays g seg blk) (q : ℕ) :
  Meets (fun _ => True) (fun y => Stays g seg blk y.1) (moveSummaryPiece g getPpa x q)
  := by
  unfold moveSummaryPiece
  split
  · apply hx
  · apply (invalidatePiecePpa_stays q hx).bind
    intro b₁ h₁
    apply Meets.bind (Q := fun y => Stays g seg blk y.2)
    · unfold gcPage
      split
      · apply h₁
      · apply (hget b₁ h₁).bind
        intro y hy
        apply hy
    · rintro ⟨page, b₂⟩ h₂
      apply (validatePiecePpa_stays _ h₂).bind
      intro b₃ h₃
      unfold endGcPage
      split
      · apply (issueWrite_stays _ h₃).bind
        intro b₄ h₄
        apply h₄
      · apply h₃

theorem swapSummary_stays (h : b.Stays g seg blk) :
  Meets (fun _ => True) (Stays g seg blk) (b.swapSummary g)
  := by
  have hb : Stays g seg blk { b with nowSummarySeg := b.reserveSummarySeg } :=
    ⟨h.seg, h.blk, h.reserve⟩
  apply (call_stays _ hb).bind
  intro b₁ h₁
  apply (getSegment_stays _ h₁).bind
  intro x hx
  use hx.seg, hx.blk, hx.reserve

theorem gcSummarySegment_stays {toReserve : Bool} {t : ℕ}
    (hget : ∀ b, b.Stays g seg blk → Meets (fun _ => True) (fun x => Stays g seg blk x.2) (getPpa b))
    (h : b.Stays g seg blk) :
  Meets (fun _ => True) (Stays g seg blk) (b.gcSummarySegment g getPpa toReserve t)
  := by
  unfold gcSummarySegment
  apply Meets.bind (Q := fun y => Stays g seg blk y.1)
  · apply meets_foldlM (fun y : L2pBm × GcPage => Stays g seg blk y.1) _ h
    intro q _ x hx
    apply moveSummaryPiece_stays hget hx q
  · rintro ⟨b₁, page⟩ h₁
    apply (issueWrite_stays page h₁).bind
    intro b₂ h₂
    apply (clear_stays t h₂).bind
    intro b₃ h₃
    split
    · apply swapSummary_stays h₃
    · apply h₃

/-! ### The garbage collection -/

theorem popUntil_stays {type : SegType} (fuel : ℕ) :
  ∀ {b : L2pBm} {t : ℕ} {parked : List ℕ}, b.Stays g seg blk →
    Meets (fun _ => True) (fun x => Stays g seg blk x.2.2) (popUntil g type fuel t parked b)
  := by
  induction fuel with
  | zero =>
      intro b t parked _
      trivial
  | succ fuel ih =>
      intro b t parked h
      unfold popUntil
      split
      · apply h
      · apply (getGcTarget_stays h).bind
        intro x hx
        apply (meets_orThrow fun _ => trivial).bind
        intro next _
        apply ih hx

theorem insertParked_stays {parked : List ℕ} (h : b.Stays g seg blk) :
  Meets (fun _ => True) (Stays g seg blk) (b.insertParked g parked)
  := by
  apply meets_foldlM (Stays g seg blk) _ h
  intro s _ b hb
  apply call_stays _ hb

/-- The garbage collection, whatever a copied victim leaves. -/
theorem gcWith_stays {relocate : L2pBm → ℕ → Except Abort L2pBm} {type : SegType} {R : L2pBm → Prop}
    (hrel : ∀ b t, b.fitsActive g type t = true → b.Stays g seg blk →
      Meets (fun _ => True) (Stays g seg blk) (relocate b t))
    (hcopy : ∀ (b : L2pBm) t, b.Stays g seg blk →
      Meets (fun _ => True) R (b.copyVictim g type t))
    (hinsert : ∀ b parked, R b → Meets (fun _ => True) R (b.insertParked g parked))
    (h : b.Stays g seg blk) :
  Meets (fun _ => True)
    (fun x => if x.1 = .gcCopy then R x.2 else Stays g seg blk x.2) (b.gcWith g relocate type)
  := by
  unfold gcWith
  apply (getGcTarget_stays h).bind
  rintro ⟨target, b₁⟩ h₁
  apply (meets_orThrow fun _ => trivial).bind
  intro t _
  dsimp only
  split
  · apply (clear_stays t h₁).bind
    intro b₂ h₂
    apply h₂
  · split
    · rename_i hfits
      apply (hrel b₁ t hfits h₁).bind
      intro b₂ h₂
      apply h₂
    · have hpop : Meets (fun _ => True) (fun x => Stays g seg blk x.2.2)
          (popUntil g type (b₁.pool.bm.maxHeap.length + 1) t [] b₁) := popUntil_stays _ h₁
      apply hpop.bind
      rintro ⟨u, parked, b₂⟩ h₂
      apply (hcopy b₂ u h₂).bind
      intro b₃ h₃
      apply (hinsert b₃ parked h₃).bind
      intro b₄ h₄
      apply h₄

theorem gcSummary_stays (h : b.Stays g seg blk) :
  Meets (fun _ => True) (fun x => Stays g seg blk x.2) (b.gcSummary g)
  := by
  have hgc : Meets (fun _ => True) (fun x => if x.1 = .gcCopy then Stays g seg blk x.2
      else Stays g seg blk x.2) (b.gcSummary g) := by
    apply gcWith_stays _ _ _ h
    · intro b t hfits
      simp [fitsActive] at hfits
    · intro b t hb
      apply gcSummarySegment_stays _ hb
      intro b' hb'
      apply getMapRppa_stays hb'
    · intro b parked hb
      apply insertParked_stays hb
  apply hgc.mono
  intro x hx
  rwa [ite_self] at hx

theorem openSummary_stays (h : b.Stays g seg blk) :
  Meets (fun _ => True) (Stays g seg blk) (b.openSummary g)
  := by
  apply (getSegment_stays _ h).bind
  intro x hx
  use hx.seg, hx.blk, hx.reserve

theorem readySummary_stays (h : b.Stays g seg blk) :
  Meets (fun _ => True) (Stays g seg blk) (b.readySummary g)
  := by
  unfold readySummary
  split
  · apply h
  · split
    · apply (gcSummary_stays h).bind
      rintro ⟨res, b₁⟩ h₁
      dsimp only
      split
      · apply (meets_require trivial).bind
        intro _ _
        apply h₁
      · apply openSummary_stays h₁
    · apply openSummary_stays h

theorem getMapPpa_stays (h : b.Stays g seg blk) :
  Meets (fun _ => True) (fun x => Stays g seg blk x.2) (b.getMapPpa g)
  := by
  apply (readySummary_stays h).bind
  intro b₁ h₁
  apply (getPageAddr_stays _ h₁).bind
  intro x hx
  use hx.seg, hx.blk, hx.reserve

/-! ### Data segments -/

theorem copyPage_stays {pba : ℕ} (h : b.Stays g seg blk) (ppa : ℕ) :
  Meets (fun _ => True) (Stays g seg blk) (copyPage g pba b ppa)
  := by
  unfold copyPage
  apply Meets.bind (Q := Stays g seg blk)
  · apply meets_foldlM (Stays g seg blk) _ h
    intro j _ b hb
    apply invalidatePiecePpa_stays _ hb
  · intro b₁ h₁
    apply (call_stays _ h₁).bind
    intro b₂ h₂
    apply meets_foldlM (Stays g seg blk) _ h₂
    intro j _ b hb
    apply validatePiecePpa_stays _ hb

theorem copyNormalBlock_stays (h : b.Stays g seg blk) (x : ℕ) :
  Meets (fun _ => True) (Stays g seg blk) (copyNormalBlock g b x)
  := by
  unfold copyNormalBlock
  apply (meets_orThrow fun _ => trivial).bind
  intro owner _
  apply (pickEmptyRpba_stays h).bind
  intro y hy
  apply (makeMap_stays hy).bind
  intro b₁ h₁
  apply meets_foldlM (Stays g seg blk) _ h₁
  intro ppa _ b hb
  apply copyPage_stays hb ppa

/-- The block that is taken from the segment next, which may be behind its end. -/
def Swapped (g : Geometry) (b : L2pBm) : Prop :=
  ∃ s blk, b.Stays g (some s) blk ∧ blk ≤ g.bps

/-- The reserve becomes the data segment. -/
theorem swapData_swapped (h : b.Stays g seg blk) :
  Meets (fun _ => True) (Swapped g) (b.swapData g)
  := by
  have hb : Stays g (some b.reserveSeg) b.reserveBlockIdx
      { b with nowSegIdx := some b.reserveSeg, nowBlockIdx := b.reserveBlockIdx } :=
    ⟨rfl, rfl, h.reserve⟩
  apply (call_stays _ hb).bind
  intro b₁ h₁
  have h₁' : Stays g (some b.reserveSeg) b.reserveBlockIdx { b₁ with reserveBlockIdx := 0 } :=
    ⟨h₁.seg, h₁.blk, Nat.zero_le _⟩
  apply (getSegment_stays _ h₁').bind
  intro x hx
  exact ⟨_, _, ⟨hx.seg, hx.blk, hx.reserve⟩, h.reserve⟩

theorem gcDataSegment_swapped {t : ℕ} (h : b.Stays g seg blk) :
  Meets (fun _ => True) (Swapped g) (b.gcDataSegment g t)
  := by
  unfold gcDataSegment
  apply (meets_require trivial).bind
  intro _ _
  apply Meets.bind (Q := Stays g seg blk)
  · apply meets_foldlM (Stays g seg blk) _ h
    intro x _ b hb
    apply copyNormalBlock_stays hb x
  · intro b₁ h₁
    apply (clear_stays t h₁).bind
    intro b₂ h₂
    apply swapData_swapped h₂

theorem gcData_stays (h : b.Stays g seg blk) :
  Meets (fun _ => True)
    (fun x => if x.1 = .gcCopy then Swapped g x.2 else Stays g seg blk x.2) (b.gcData g)
  := by
  apply gcWith_stays _ _ _ h
  · intro b t _ hb
    apply gcSummarySegment_stays _ hb
    intro b' hb'
    apply getMapPpa_stays hb'
  · intro b t hb
    apply gcDataSegment_swapped hb
  · rintro b parked ⟨s, x, hb, hx⟩
    apply (insertParked_stays hb).mono
    intro b' hb'
    use s, x, hb', hx

/-- A new data segment has all its blocks left. -/
theorem openData_settled (h : b.Stays g seg blk) :
  Meets (fun _ => True) (fun b' => b'.Settled g ∧ b'.nowSegIdx ≠ none) (b.openData g)
  := by
  apply (getSegment_stays _ h).bind
  intro x hx
  refine ⟨⟨hx.reserve, nofun, ?_⟩, nofun⟩
  intro s _
  apply g.bps_pos

theorem Settled.stays (h : b.Settled g) :
  b.Stays g b.nowSegIdx b.nowBlockIdx
  := ⟨rfl, rfl, h.reserve⟩

theorem readyData_settled (h : b.Settled g) :
  Meets (fun _ => True) (fun b' => b'.Settled g ∧ b'.nowSegIdx ≠ none) (b.readyData g)
  := by
  unfold readyData
  split
  · rename_i hsome
    use h, Option.isSome_iff_ne_none.mp hsome
  · split
    · apply (gcData_stays h.stays).bind
      rintro ⟨res, b₁⟩ h₁
      dsimp only at h₁ ⊢
      split
      · rename_i hres
        rw [if_pos hres] at h₁
        obtain ⟨s, x, h₁, hx⟩ := h₁
        apply (meets_require trivial).bind
        intro _ hne
        refine ⟨⟨h₁.reserve, ?_, ?_⟩, ?_⟩
        · rw [h₁.seg]
          intro h
          cases h
        · intro t _
          rw [h₁.blk] at hne ⊢
          omega
        · rw [h₁.seg]
          intro h
          cases h
      · rename_i hres
        rw [if_neg hres] at h₁
        apply openData_settled h₁
    · apply openData_settled h.stays

theorem pickEmptyPba_settled (h : b.Settled g) :
  Meets (fun _ => True) (fun x => Settled g x.2) (b.pickEmptyPba g)
  := by
  unfold pickEmptyPba
  apply (readyData_settled h).bind
  rintro b₁ ⟨h₁, hne⟩
  obtain ⟨s, hs⟩ := Option.ne_none_iff_exists'.mp hne
  obtain ⟨pba, b', hpick, h', -⟩ := h₁.pick_open hs
  rw [pickEmptyPba_open hs] at hpick
  cases hpick
  simp only [hs, orThrow, bind, Except.bind]
  apply h'

/-! ### Runs -/

theorem countFree_stays {wanted : Option ℕ} (fuel : ℕ) :
  ∀ {b : L2pBm} {x : ℕ × Bool} {parked : List ℕ}, b.Stays g seg blk →
    Meets (fun _ => True) (fun y => Stays g seg blk y.2.2.2) (countFree g wanted fuel x parked b)
  := by
  induction fuel with
  | zero =>
      intro b x parked _
      trivial
  | succ fuel ih =>
      intro b x parked h
      unfold countFree
      split
      · apply h
      · apply (getGcTarget_stays h).bind
        rintro ⟨target, b₁⟩ h₁
        cases target with
        | none => apply h₁
        | some t => apply ih h₁

theorem gcCheckEnoughSpace_stays {n : ℕ} (h : b.Stays g seg blk) :
  Meets (fun _ => True) (fun x => Stays g seg blk x.2) (b.gcCheckEnoughSpace g n)
  := by
  unfold gcCheckEnoughSpace
  split
  · apply h
  · apply (countFree_stays _ h).bind
    intro y hy
    apply (insertParked_stays hy).bind
    intro b' hb'
    apply hb'

theorem gcCheckFreeEnableSpace_stays (h : b.Stays g seg blk) :
  Meets (fun _ => True) (fun x => Stays g seg blk x.2) (b.gcCheckFreeEnableSpace g)
  := by
  unfold gcCheckFreeEnableSpace
  apply (countFree_stays _ h).bind
  intro y hy
  apply (insertParked_stays hy).bind
  intro b' hb'
  apply hb'

theorem Stays.settled (h : b.Settled g) {b' : L2pBm}
    (h' : b'.Stays g b.nowSegIdx b.nowBlockIdx) :
  b'.Settled g
  where
    reserve := h'.reserve
    closed hs := h'.blk ▸ h.closed (h'.seg ▸ hs)
    opened s hs := h'.blk ▸ h.opened s (h'.seg ▸ hs)

/-- Every call of the tree leaves the table settled. -/
theorem step_settled (h : b.Settled g) (op : TableOp) :
  Meets (fun _ => True) (Settled g) (step g b op)
  := by
  have hstays := h.stays
  cases op with
  | pickEmptyPba =>
      apply (pickEmptyPba_settled h).bind
      intro x hx
      apply hx
  | getMapPpa =>
      apply (getMapPpa_stays hstays).bind
      intro x hx
      apply hx.settled h
  | makeMap pba sid intraIdx => apply (makeMap_stays hstays).mono fun _ hb => hb.settled h
  | moveOwner pba sid intraIdx => apply (moveOwner_stays hstays).mono fun _ hb => hb.settled h
  | validatePiecePpa q => apply (validatePiecePpa_stays q hstays).mono fun _ hb => hb.settled h
  | invalidatePiecePpa q force =>
      simp only [step]
      split
      · apply (invalidatePiecePpa_stays q hstays).mono fun _ hb => hb.settled h
      · apply (call_stays _ hstays).mono fun _ hb => hb.settled h
  | setOob lbas ppa => apply (call_stays _ hstays).mono fun _ hb => hb.settled h
  | gcCheckEnoughSpace n =>
      apply (gcCheckEnoughSpace_stays hstays).bind
      intro x hx
      apply hx.settled h
  | gcCheckFreeEnableSpace =>
      apply (gcCheckFreeEnableSpace_stays hstays).bind
      intro x hx
      apply hx.settled h

theorem init_settled {victims : List ℕ} :
  Meets (fun _ => True) (Settled g) (init g victims)
  := by
  unfold init
  have h₀ : Stays g none 0
      { pool := SegmentPool.create g
        segType := fun _ => .emptySeg
        pbaMap := fun _ => ⟨.lsmBlockEmpty, none⟩
        reserveSeg := 0
        reserveSummarySeg := 0
        nowSummarySeg := 0
        reserveBlockIdx := 0
        nowBlockIdx := 0
        nowSegIdx := none
        victims := victims } :=
    ⟨rfl, rfl, Nat.zero_le _⟩
  apply (getSegment_stays _ h₀).bind
  rintro ⟨s₁, b₁⟩ h₁
  have h₁' : Stays g none 0 { b₁.setSegType s₁ .dataSeg with reserveSeg := s₁ } :=
    ⟨h₁.seg, h₁.blk, h₁.reserve⟩
  apply (getSegment_stays _ h₁').bind
  rintro ⟨s₂, b₂⟩ h₂
  have h₂' : Stays g none 0 { b₂.setSegType s₂ .summarySeg with reserveSummarySeg := s₂ } :=
    ⟨h₂.seg, h₂.blk, h₂.reserve⟩
  apply (getSegment_stays _ h₂').bind
  rintro ⟨s₃, b₃⟩ h₃
  have h₃' : Stays g none 0 { b₃.setSegType s₃ .summarySeg with nowSummarySeg := s₃ } :=
    ⟨h₃.seg, h₃.blk, h₃.reserve⟩
  apply (getSegment_stays _ h₃').bind
  rintro ⟨s₄, b₄⟩ h₄
  refine ⟨h₄.reserve, ?_, ?_⟩
  · intro _
    left
    apply h₄.blk
  · intro s hs
    have hnone : b₄.nowSegIdx = none := h₄.seg
    rw [hnone] at hs
    cases hs

theorem exec_settled {victims : List ℕ} {ops : List TableOp} :
  Meets (fun _ => True) (Settled g) (exec g victims ops)
  := by
  apply init_settled.bind
  induction ops with
  | nil =>
      intro b hb
      apply hb
  | cons op ops ih =>
      intro b hb
      apply (step_settled hb op).bind
      intro b' hb'
      apply ih b' hb'

/-- The estimate takes a free segment for as many blocks as a block has pages. -/
theorem getFreeBlockNum_eq :
  b.getFreeBlockNum g = b.pool.bm.freeSegmentQ.length * g.ppb + (g.bps - b.nowBlockIdx)
  := by
  rw [getFreeBlockNum, BlockManager.totalFreePageNum, Nat.add_zero, Geometry.pps, ← Nat.mul_assoc,
    Nat.mul_div_cancel _ g.bps_pos]

/-- In every state of the tree, the estimate of the free blocks is at most the number of blocks
that are handed out without a garbage collection exactly when a free segment, if there is one,
does not count for more blocks than it has, and before the first data segment is opened the
others make up for the one that is counted without being there. -/
theorem getFreeBlockNum_handsOut_iff {victims : List ℕ} {ops : List TableOp}
    (h : exec g victims ops = .ok b) :
  HandsOut g (b.getFreeBlockNum g) b ↔
    if b.nowSegIdx = none ∧ b.nowBlockIdx = 0 then
      b.pool.bm.freeSegmentQ.length * g.ppb + g.bps ≤ b.pool.bm.freeSegmentQ.length * g.bps
    else
      b.pool.bm.freeSegmentQ = [] ∨ g.ppb ≤ g.bps
  := by
  have hb : b.Settled g := exec_settled.of_ok h
  have hpos := g.bps_pos
  have hmul : b.pool.bm.freeSegmentQ.length * g.ppb ≤ b.pool.bm.freeSegmentQ.length * g.bps ↔
      b.pool.bm.freeSegmentQ = [] ∨ g.ppb ≤ g.bps := by
    rcases Nat.eq_zero_or_pos b.pool.bm.freeSegmentQ.length with hzero | hlen
    · apply iff_of_true (by simp [hzero]) (.inl (List.length_eq_zero_iff.mp hzero))
    · rw [Nat.mul_le_mul_left_iff hlen, or_iff_right (List.ne_nil_of_length_pos hlen)]
  rw [handsOut_iff _ hb, getFreeBlockNum_eq, blocksLeft]
  cases hs : b.nowSegIdx with
  | none =>
      rcases hb.closed hs with h0 | hfull
      · rw [h0, if_pos rfl, if_pos ⟨rfl, rfl⟩]
        apply Iff.rfl
      · rw [hfull, if_pos rfl, if_neg (by omega), Nat.sub_self, ← hmul]
        apply Iff.rfl
  | some s =>
      rw [if_neg nofun, if_neg (by rintro ⟨hno, -⟩; cases hno), ← hmul]
      omega

/-- With the settings of the simulator every free segment is taken for twice its blocks. -/
theorem getFreeBlockNum_handsOut_iff_firstBlock :
  ∃ b, exec Geometry.default [] [.pickEmptyPba] = .ok b ∧
    (HandsOut Geometry.default (b.getFreeBlockNum Geometry.default) b ↔
      if b.nowSegIdx = none ∧ b.nowBlockIdx = 0 then
        b.pool.bm.freeSegmentQ.length * Geometry.default.ppb + Geometry.default.bps
          ≤ b.pool.bm.freeSegmentQ.length * Geometry.default.bps
      else
        b.pool.bm.freeSegmentQ = [] ∨ Geometry.default.ppb ≤ Geometry.default.bps)
  := by
  have hrun : (exec Geometry.default [] [.pickEmptyPba]).isOk = true := by decide +kernel
  cases h : exec Geometry.default [] [.pickEmptyPba] with
  | error e =>
      rw [h] at hrun
      cases hrun
  | ok b => exact ⟨b, rfl, getFreeBlockNum_handsOut_iff h⟩

/-- When one block has been handed out, the estimate is 35391, and 17727 blocks are handed out
without a garbage collection. -/
theorem not_handsOut_firstBlock :
  ∃ b, exec Geometry.default [] [.pickEmptyPba] = .ok b ∧
    b.getFreeBlockNum Geometry.default = 35391 ∧
    (∀ n, HandsOut Geometry.default n b ↔ n ≤ 17727) ∧
    ¬ HandsOut Geometry.default (b.getFreeBlockNum Geometry.default) b
  := by
  have hrun : ((exec Geometry.default [] [.pickEmptyPba]).map fun b =>
      (b.nowSegIdx, b.nowBlockIdx, b.pool.bm.freeSegmentQ.length)) = .ok (some 4, 1, 276) := by
    decide +kernel
  cases h : exec Geometry.default [] [.pickEmptyPba] with
  | error e =>
      rw [h] at hrun
      cases hrun
  | ok b =>
      rw [h] at hrun
      simp only [Except.map, Except.ok.injEq, Prod.mk.injEq] at hrun
      obtain ⟨hs, hblk, hlen⟩ := hrun
      have hest : b.getFreeBlockNum Geometry.default = 35391 := by
        rw [getFreeBlockNum_eq, hblk, hlen]
        rfl
      have hout : ∀ n, HandsOut Geometry.default n b ↔ n ≤ 17727 := by
        intro n
        rw [handsOut_iff n (exec_settled.of_ok h), blocksLeft, hs, hblk, hlen]
        apply Iff.rfl
      refine ⟨b, rfl, hest, hout, ?_⟩
      rw [hest, hout]
      decide

end L2pBm

end AppL
