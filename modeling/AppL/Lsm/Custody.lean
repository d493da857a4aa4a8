import AppL.Lsm.BlockTable

/-!
# The segments of the layered LSM tree

The calls of the block manager in the garbage collection of the layered LSM tree fit together:
whatever is erased or given back to the heap was taken out of it before, and nothing is kept
when the garbage collection ends.  So every segment is in one place.
-/

namespace AppL

open Transition

/-- A failure that is one of the code, not of a call that does not fit. -/
def Fits (e : Abort) : Prop := e ≠ .wrongPhase

instance (e : Abort) : Decidable (Fits e) := inferInstanceAs (Decidable (e ≠ _))

namespace SegmentPool

variable {g : Geometry} {cnt : Segment → ℤ} {p p' : SegmentPool}

/-! ### Calls that fit -/

theorem getPageAddr_fits {bm : BlockManager} {s : ℕ} :
  Meets Fits (fun x => x.2.freeSegmentQ = bm.freeSegmentQ ∧ x.2.maxHeap = bm.maxHeap)
    (bm.getPageAddr g s)
  := by
  cases h : bm.getPageAddr g s with
  | ok x => apply getPageAddr_places h
  | error e =>
      unfold BlockManager.getPageAddr at h
      extract_lets seg bptr blk next res at h
      split at h
      · cases h
      · split at h
        · cases h
          exact nofun
        · cases h

/-- The calls that leave the reserves and the victims as they are. -/
def Quiet : SegmentOp → Prop
  | .getSegment .active => True
  | .bitSet _ => True
  | .bitUnset _ => True
  | .setOob _ _ => True
  | .getPageAddr _ => True
  | _ => False

theorem step_quiet {op : SegmentOp} (hop : Quiet op) :
  Meets Fits (fun p' => p'.reserves = p.reserves ∧ p'.popped = p.popped) (step g cnt p op)
  := by
  cases op with
  | getSegment use =>
      cases use with
      | reserve => apply hop.elim
      | active =>
          simp only [step, BlockManager.getSegActive]
          split
          · intro hphase
            cases hphase
          · exact ⟨rfl, rfl⟩
  | changeReserveToActive s => apply hop.elim
  | getGcTarget s => apply hop.elim
  | insertGcTarget s => apply hop.elim
  | trimSegment s => apply hop.elim
  | bitSet q => exact ⟨rfl, rfl⟩
  | bitUnset q => exact ⟨rfl, rfl⟩
  | setOob lbas ppa => exact ⟨rfl, rfl⟩
  | getPageAddr s =>
      apply getPageAddr_fits.bind
      intro x _
      exact ⟨rfl, rfl⟩

theorem step_change {s : ℕ} (hs : s ∈ p.reserves) :
  Meets Fits (fun p' => p'.reserves = p.reserves.erase s ∧ p'.popped = p.popped)
    (step g cnt p (.changeReserveToActive s))
  := by
  simp only [step, require, hs, if_true]
  exact ⟨rfl, rfl⟩

theorem step_target (s : ℕ) :
  Meets Fits (fun p' => p'.reserves = p.reserves ∧ p'.popped = s :: p.popped)
    (step g cnt p (.getGcTarget s))
  := by
  simp only [step, BlockManager.getGcTarget]
  apply Meets.bind (Q := fun _ => True)
  · apply (meets_require (by decide)).bind
    intro _ _
    apply (meets_require (by decide)).bind
    intro _ _
    trivial
  · intro bm _
    exact ⟨rfl, rfl⟩

theorem step_insert {s : ℕ} (hs : s ∈ p.popped) :
  Meets Fits (fun p' => p'.reserves = p.reserves ∧ p'.popped = p.popped.erase s)
    (step g cnt p (.insertGcTarget s))
  := by
  simp only [step, require, hs, if_true]
  exact ⟨rfl, rfl⟩

theorem step_trim {s : ℕ} (hs : s ∈ p.popped) :
  Meets Fits (fun p' => p'.reserves = p.reserves ∧ p'.popped = p.popped.erase s)
    (step g cnt p (.trimSegment s))
  := by
  simp only [step, require, hs, if_true]
  exact ⟨rfl, rfl⟩

end SegmentPool

namespace L2pBm

variable {g : Geometry} {b : L2pBm} {d s : ℕ} {rs ps : List ℕ}

/-- The reserves `rs` and the victims `ps` are held, with `d` and `s` as the reserves for data
and for summaries, and the block manager has been called as it is meant to be. -/
structure Holds (g : Geometry) (d s : ℕ) (rs ps : List ℕ) (b : L2pBm) : Prop where
  data : b.reserveSeg = d
  summary : b.reserveSummarySeg = s
  reserves : b.pool.reserves.Perm rs
  popped : b.pool.popped.Perm ps
  reach : (SegmentPool.create g).Reaches g g.heapCnt b.pool

/-- A call of the block manager. -/
theorem call_meets {op : SegmentOp} {Q : SegmentPool → Prop} (h : b.Holds g d s rs ps)
    (hstep : Meets Fits Q (b.pool.step g g.heapCnt op)) (rs' ps' : List ℕ)
    (hQ : ∀ p, Q p → p.reserves.Perm rs' ∧ p.popped.Perm ps') :
  Meets Fits (Holds g d s rs' ps') (b.call g op)
  := by
  cases hp : b.pool.step g g.heapCnt op with
  | error e =>
      rw [hp] at hstep
      rw [call, hp]
      apply hstep
  | ok p =>
      rw [hp] at hstep
      rw [call, hp]
      obtain ⟨hrs, hps⟩ := hQ p hstep
      exact ⟨h.data, h.summary, hrs, hps, h.reach.trans (.single hp)⟩

theorem call_quiet (op : SegmentOp) (h : b.Holds g d s rs ps) (hop : SegmentPool.Quiet op) :
  Meets Fits (Holds g d s rs ps) (b.call g op)
  := by
  apply call_meets h (SegmentPool.step_quiet hop) rs ps
  rintro p ⟨hrs, hps⟩
  rw [hrs, hps]
  use h.reserves, h.popped

theorem call_trim {t : ℕ} (h : b.Holds g d s rs (t :: ps)) :
  Meets Fits (Holds g d s rs ps) (b.call g (.trimSegment t))
  := by
  apply call_meets h (SegmentPool.step_trim (h.popped.mem_iff.mpr (by simp))) rs ps
  rintro p ⟨hrs, hps⟩
  rw [hrs, hps]
  use h.reserves
  simpa using h.popped.erase t

theorem call_insert {t : ℕ} (h : b.Holds g d s rs (t :: ps)) :
  Meets Fits (Holds g d s rs ps) (b.call g (.insertGcTarget t))
  := by
  apply call_meets h (SegmentPool.step_insert (h.popped.mem_iff.mpr (by simp))) rs ps
  rintro p ⟨hrs, hps⟩
  rw [hrs, hps]
  use h.reserves
  simpa using h.popped.erase t

theorem call_change {t : ℕ} (h : b.Holds g d s (t :: rs) ps) :
  Meets Fits (Holds g d s rs ps) (b.call g (.changeReserveToActive t))
  := by
  apply call_meets h (SegmentPool.step_change (h.reserves.mem_iff.mpr (by simp))) rs ps
  rintro p ⟨hrs, hps⟩
  rw [hrs, hps]
  refine ⟨?_, h.popped⟩
  simpa using h.reserves.erase t

/-- A new reserve. -/
theorem getSegment_reserve (h : b.Holds g d s rs ps) :
  Meets Fits (fun x => Holds g d s (x.1 :: rs) ps x.2) (b.getSegment g .reserve)
  := by
  unfold getSegment
  apply (meets_orThrow fun _ => by decide).bind
  intro t ht
  apply Meets.bind (Q := Holds g d s (t :: rs) ps)
  · apply call_meets (Q := fun p => p.reserves = t :: b.pool.reserves ∧
      p.popped = b.pool.popped) h _ (t :: rs) ps
    rotate_left
    · simp only [SegmentPool.step, BlockManager.getSegReserve]
      split
      · intro hphase
        cases hphase
      · rename_i hq
        rw [hq] at ht
        cases ht
        exact ⟨rfl, rfl⟩
    · rintro p ⟨hrs, hps⟩
      rw [hrs, hps]
      use h.reserves.cons t, h.popped
  · intro b' hb'
    apply hb'

theorem getSegment_active (h : b.Holds g d s rs ps) :
  Meets Fits (fun x => Holds g d s rs ps x.2) (b.getSegment g .active)
  := by
  unfold getSegment
  apply (meets_orThrow fun _ => by decide).bind
  intro t ht
  apply Meets.bind (call_quiet (.getSegment .active) h trivial)
  intro b' hb'
  apply hb'

/-- A victim is taken out of the heap, unless the heap is empty. -/
theorem getGcTarget_meets (h : b.Holds g d s rs ps) :
  Meets Fits (fun x => Holds g d s rs (x.1.toList ++ ps) x.2) (b.getGcTarget g)
  := by
  unfold getGcTarget
  split
  · apply h
  · split
    · exact nofun
    · rename_i t victims _
      have hb : Holds g d s rs ps { b with victims := victims } :=
        ⟨h.data, h.summary, h.reserves, h.popped, h.reach⟩
      apply (call_meets hb (SegmentPool.step_target t) rs (t :: ps) _).bind
      · intro b' hb'
        apply hb'
      · rintro p ⟨hrs, hps⟩
        rw [hrs, hps]
        use h.reserves, h.popped.cons t

theorem getPageAddr_meets {t : ℕ} (h : b.Holds g d s rs ps) :
  Meets Fits (fun x => Holds g d s rs ps x.2) (b.getPageAddr g t)
  := by
  unfold getPageAddr
  apply SegmentPool.getPageAddr_fits.bind
  intro x _
  apply (meets_orThrow fun _ => by decide).bind
  intro page _
  apply Meets.bind (call_quiet (.getPageAddr t) h trivial)
  intro b' hb'
  apply hb'

theorem validatePiecePpa_meets {q : ℕ} (h : b.Holds g d s rs ps) :
  Meets Fits (Holds g d s rs ps) (b.validatePiecePpa g q)
  := by
  apply (meets_require (by decide)).bind
  intro _ _
  exact call_quiet _ h trivial

theorem invalidatePiecePpa_meets {q : ℕ} (h : b.Holds g d s rs ps) :
  Meets Fits (Holds g d s rs ps) (b.invalidatePiecePpa g q)
  := by
  apply (meets_require (by decide)).bind
  intro _ _
  exact call_quiet _ h trivial

/-! ### The table -/

/-- Changes of the table alone. -/
theorem Holds.table {b' : L2pBm} (h : b.Holds g d s rs ps) (hpool : b'.pool = b.pool)
    (hdata : b'.reserveSeg = b.reserveSeg)
    (hsum : b'.reserveSummarySeg = b.reserveSummarySeg) :
  b'.Holds g d s rs ps
  where
    data := hdata.trans h.data
    summary := hsum.trans h.summary
    reserves := hpool ▸ h.reserves
    popped := hpool ▸ h.popped
    reach := hpool ▸ h.reach

theorem makeMap_meets {pba sid idx : ℕ} (h : b.Holds g d s rs ps) :
  Meets Fits (Holds g d s rs ps) (b.makeMap g pba sid idx)
  := by
  apply (meets_require (by decide)).bind
  intro _ _
  exact h.table rfl rfl rfl

theorem moveOwner_meets {pba sid idx : ℕ} (h : b.Holds g d s rs ps) :
  Meets Fits (Holds g d s rs ps) (b.moveOwner g pba sid idx)
  := by
  apply (meets_require (by decide)).bind
  intro _ _
  apply (meets_require (by decide)).bind
  intro _ _
  exact h.table rfl rfl rfl

theorem pickEmptyRpba_meets (h : b.Holds g d s rs ps) :
  Meets Fits (fun x => Holds g d s rs ps x.2) (b.pickEmptyRpba g)
  := by
  apply (meets_require (by decide)).bind
  intro _ _
  exact h.table rfl rfl rfl

theorem getMapRppa_meets (h : b.Holds g d s rs ps) :
  Meets Fits (fun x => Holds g d s rs ps x.2) (b.getMapRppa g)
  := by
  apply (meets_require (by decide)).bind
  intro _ _
  apply (getPageAddr_meets h).bind
  intro x hx
  exact hx.table rfl rfl rfl

theorem clear_meets {t : ℕ} (h : b.Holds g d s rs (t :: ps)) :
  Meets Fits (Holds g d s rs ps) (b.clearBlockAndGsegment g t)
  := call_trim (h.table rfl rfl rfl)

/-! ### Summary segments -/

/-- A property of the table that does not change with the bits, the out-of-band areas and the
pages that are assigned. -/
def Calm (g : Geometry) (P : L2pBm → Prop) : Prop :=
  ∀ b op, P b → SegmentPool.Quiet op → Meets Fits P (b.call g op)

variable {P : L2pBm → Prop} {getPpa : L2pBm → Except Abort (ℕ × L2pBm)}

theorem issueWrite_meets {page : GcPage} (hP : Calm g P) (hb : P b) :
  Meets Fits P (b.issueWrite g page)
  := by
  unfold issueWrite
  split
  · apply hb
  · exact hP _ _ hb trivial

theorem moveSummaryPiece_meets (hP : Calm g P)
    (hget : ∀ b, P b → Meets Fits (fun x => P x.2) (getPpa b)) {x : L2pBm × GcPage}
    (hx : P x.1) (q : ℕ) :
  Meets Fits (fun y => P y.1) (moveSummaryPiece g getPpa x q)
  := by
  unfold moveSummaryPiece
  split
  · apply hx
  · apply Meets.bind (Q := P)
    · apply (meets_require (by decide)).bind
      intro _ _
      exact hP _ _ hx trivial
    · intro b hb
      apply Meets.bind (Q := fun y => P y.2)
      · unfold gcPage
        split
        · apply hb
        · apply (hget b hb).bind
          intro y hy
          apply hy
      · intro y hy
        apply Meets.bind (Q := P)
        · apply (meets_require (by decide)).bind
          intro _ _
          exact hP _ _ hy trivial
        · intro b hb
          unfold endGcPage
          split
          · apply (issueWrite_meets hP hb).bind
            intro b hb
            apply hb
          · apply hb

theorem movePieces_meets (hP : Calm g P)
    (hget : ∀ b, P b → Meets Fits (fun x => P x.2) (getPpa b)) (hb : P b) (qs : List ℕ) :
  Meets Fits (fun y => P y.1) (qs.foldlM (moveSummaryPiece g getPpa) (b, none))
  := by
  apply meets_foldlM (fun y : L2pBm × GcPage => P y.1) _ hb
  intro q _ x hx
  apply moveSummaryPiece_meets hP hget hx q

/-- The reserves of the three users are held, and the victims `ps`. -/
def Keeps (g : Geometry) (ps : List ℕ) (b : L2pBm) : Prop :=
  ∃ sc, b.Holds g b.reserveSeg b.reserveSummarySeg [b.reserveSeg, b.reserveSummarySeg, sc] ps

theorem Holds.keeps {sc : ℕ} (h : b.Holds g d s [d, s, sc] ps) :
  b.Keeps g ps
  := by
  obtain ⟨rfl, rfl, hrs, hps, hreach⟩ := h
  exact ⟨sc, rfl, rfl, hrs, hps, hreach⟩

theorem calm_keeps :
  Calm g (Keeps g ps)
  := by
  rintro b op ⟨sc, h⟩ hop
  apply (call_quiet op h hop).mono
  intro b' hb'
  apply hb'.keeps

theorem swapSummary_meets (h : b.Keeps g ps) :
  Meets Fits (Keeps g ps) (b.swapSummary g)
  := by
  obtain ⟨sc, h⟩ := h
  have hswap : Holds g b.reserveSeg b.reserveSummarySeg
      (b.reserveSummarySeg :: [b.reserveSeg, sc]) ps
      { b with nowSummarySeg := b.reserveSummarySeg } :=
    ⟨rfl, rfl, h.reserves.trans (.swap ..), h.popped, h.reach⟩
  apply (call_change hswap).bind
  intro b₁ h₁
  apply (getSegment_reserve h₁).bind
  rintro ⟨t, b₂⟩ h₂
  have hend : Holds g b.reserveSeg t [b.reserveSeg, t, sc] ps
      { b₂.setSegType t .summarySeg with reserveSummarySeg := t } :=
    ⟨h₂.data, rfl, h₂.reserves.trans (.swap ..), h₂.popped, h₂.reach⟩
  apply hend.keeps

theorem gcSummarySegment_meets {toReserve : Bool} {t : ℕ}
    (hget : ∀ b, b.Keeps g (t :: ps) →
      Meets Fits (fun x => Keeps g (t :: ps) x.2) (getPpa b)) (h : b.Keeps g (t :: ps)) :
  Meets Fits (Keeps g ps) (b.gcSummarySegment g getPpa toReserve t)
  := by
  unfold gcSummarySegment
  apply (movePieces_meets calm_keeps hget h _).bind
  rintro ⟨b₁, page⟩ h₁
  apply (issueWrite_meets calm_keeps h₁).bind
  rintro b₂ ⟨sc, h₂⟩
  apply (clear_meets h₂).bind
  intro b₃ h₃
  split
  · apply swapSummary_meets h₃.keeps
  · apply h₃.keeps

/-! ### Data segments -/

theorem copyPage_meets {pba : ℕ} (h : b.Holds g d s rs ps) (ppa : ℕ) :
  Meets Fits (Holds g d s rs ps) (copyPage g pba b ppa)
  := by
  unfold copyPage
  apply Meets.bind (Q := Holds g d s rs ps)
  · apply meets_foldlM (Holds g d s rs ps) _ h
    intro j _ b hb
    apply invalidatePiecePpa_meets hb
  · intro b₁ h₁
    apply Meets.bind (call_quiet (.setOob _ _) h₁ trivial)
    intro b₂ h₂
    apply meets_foldlM (Holds g d s rs ps) _ h₂
    intro j _ b hb
    apply validatePiecePpa_meets hb

theorem copyNormalBlock_meets (h : b.Holds g d s rs ps) (blk : ℕ) :
  Meets Fits (Holds g d s rs ps) (copyNormalBlock g b blk)
  := by
  unfold copyNormalBlock
  apply (meets_orThrow fun _ => by decide).bind
  intro x _
  apply (pickEmptyRpba_meets h).bind
  intro y hy
  apply (makeMap_meets hy).bind
  intro b₁ h₁
  apply meets_foldlM (Holds g d s rs ps) _ h₁
  intro ppa _ b hb
  apply copyPage_meets hb ppa

theorem swapData_meets (h : b.Keeps g ps) :
  Meets Fits (Keeps g ps) (b.swapData g)
  := by
  obtain ⟨sc, h⟩ := h
  have hswap : Holds g b.reserveSeg b.reserveSummarySeg
      (b.reserveSeg :: [b.reserveSummarySeg, sc]) ps
      { b with nowSegIdx := some b.reserveSeg, nowBlockIdx := b.reserveBlockIdx } :=
    ⟨rfl, rfl, h.reserves, h.popped, h.reach⟩
  apply (call_change hswap).bind
  intro b₁ h₁
  apply Meets.bind (getSegment_reserve (b := { b₁ with reserveBlockIdx := 0 })
    (h₁.table rfl rfl rfl))
  rintro ⟨t, b₂⟩ h₂
  have hend : Holds g t b.reserveSummarySeg [t, b.reserveSummarySeg, sc] ps
      { b₂.setSegType t .dataSeg with reserveSeg := t } :=
    ⟨rfl, h₂.summary, h₂.reserves, h₂.popped, h₂.reach⟩
  apply hend.keeps

theorem gcDataSegment_meets {t : ℕ} (h : b.Keeps g (t :: ps)) :
  Meets Fits (Keeps g ps) (b.gcDataSegment g t)
  := by
  obtain ⟨sc, h⟩ := h
  unfold gcDataSegment
  apply (meets_require (by decide)).bind
  intro _ _
  apply Meets.bind (Q := Holds g b.reserveSeg b.reserveSummarySeg
    [b.reserveSeg, b.reserveSummarySeg, sc] (t :: ps))
  · apply meets_foldlM (Holds g _ _ _ _) _ h
    intro blk _ b hb
    apply copyNormalBlock_meets hb blk
  · intro b₁ h₁
    apply (clear_meets h₁).bind
    intro b₂ h₂
    apply swapData_meets h₂.keeps

/-! ### The garbage collection -/

/-- The victims of the wrong type are parked. -/
theorem popUntil_meets {type : SegType} (fuel : ℕ) :
  ∀ {b : L2pBm} {t : ℕ} {parked : List ℕ}, b.Holds g d s rs (t :: (parked ++ ps)) →
    Meets Fits (fun x => Holds g d s rs (x.1 :: (x.2.1 ++ ps)) x.2.2)
      (popUntil g type fuel t parked b)
  := by
  induction fuel with
  | zero =>
      intro b t parked _
      exact nofun
  | succ fuel ih =>
      intro b t parked h
      unfold popUntil
      split
      · apply h
      · apply (getGcTarget_meets h).bind
        rintro ⟨next, b₁⟩ h₁
        apply (meets_orThrow fun _ => by decide).bind
        rintro u rfl
        apply ih
        refine ⟨h₁.data, h₁.summary, h₁.reserves, h₁.popped.trans ?_, h₁.reach⟩
        simp only [Option.toList_some, List.singleton_append, List.append_assoc]
        apply List.Perm.cons
        apply List.perm_middle.symm

theorem insertParked_meets {parked : List ℕ} :
  ∀ {b : L2pBm}, b.Holds g d s rs (parked ++ ps) →
    Meets Fits (Holds g d s rs ps) (b.insertParked g parked)
  := by
  induction parked with
  | nil =>
      intro b h
      apply h
  | cons t parked ih =>
      intro b h
      rw [insertParked, List.foldlM_cons]
      apply (call_insert h).bind
      intro b₁ h₁
      apply ih h₁

theorem copyVictim_meets {type : SegType} {t : ℕ} (h : b.Keeps g (t :: ps)) :
  Meets Fits (Keeps g ps) (b.copyVictim g type t)
  := by
  unfold copyVictim
  split
  · apply gcDataSegment_meets h
  · apply gcSummarySegment_meets _ h
    rintro b ⟨sc, hb⟩
    apply (getMapRppa_meets hb).mono
    intro x hx
    apply hx.keeps

/-- `gc` gives back or erases every victim it takes. -/
theorem gcWith_meets {relocate : L2pBm → ℕ → Except Abort L2pBm} {type : SegType}
    (hrel : ∀ b t, b.fitsActive g type t = true → b.Keeps g (t :: ps) →
      Meets Fits (Keeps g ps) (relocate b t))
    (h : b.Keeps g ps) :
  Meets Fits (fun x => Keeps g ps x.2) (b.gcWith g relocate type)
  := by
  obtain ⟨sc, h⟩ := h
  unfold gcWith
  apply (getGcTarget_meets h).bind
  rintro ⟨target, b₁⟩ h₁
  apply (meets_orThrow fun _ => by decide).bind
  rintro t rfl
  dsimp only
  split
  · apply (clear_meets h₁).bind
    intro b₂ h₂
    apply h₂.keeps
  · split
    · rename_i hfits
      apply (hrel b₁ t hfits h₁.keeps).bind
      intro b₂ h₂
      apply h₂
    · have hpop : Meets Fits (fun x => Holds g _ _ _ (x.1 :: (x.2.1 ++ ps)) x.2.2)
          (popUntil g type (b₁.pool.bm.maxHeap.length + 1) t [] b₁) := popUntil_meets _ h₁
      apply hpop.bind
      rintro ⟨u, parked, b₂⟩ h₂
      apply (copyVictim_meets h₂.keeps).bind
      rintro b₃ ⟨sc, h₃⟩
      apply (insertParked_meets h₃).bind
      intro b₄ h₄
      apply h₄.keeps

theorem gcSummary_meets (h : b.Keeps g ps) :
  Meets Fits (fun x => Keeps g ps x.2) (b.gcSummary g)
  := by
  apply gcWith_meets _ h
  intro b t hfits
  simp [fitsActive] at hfits

theorem openSummary_meets (h : b.Keeps g ps) :
  Meets Fits (Keeps g ps) (b.openSummary g)
  := by
  obtain ⟨sc, h⟩ := h
  apply (getSegment_active h).bind
  rintro ⟨t, b₁⟩ h₁
  exact Holds.keeps (h₁.table rfl rfl rfl)

theorem readySummary_meets (h : b.Keeps g ps) :
  Meets Fits (Keeps g ps) (b.readySummary g)
  := by
  unfold readySummary
  split
  · apply h
  · split
    · apply (gcSummary_meets h).bind
      rintro ⟨res, b₁⟩ h₁
      dsimp only
      split
      · apply (meets_require (by decide)).bind
        intro _ _
        apply h₁
      · apply openSummary_meets h₁
    · apply openSummary_meets h

theorem getMapPpa_meets (h : b.Keeps g ps) :
  Meets Fits (fun x => Keeps g ps x.2) (b.getMapPpa g)
  := by
  apply (readySummary_meets h).bind
  rintro b₁ ⟨sc, h₁⟩
  apply (getPageAddr_meets h₁).bind
  rintro ⟨ppa, b₂⟩ h₂
  exact Holds.keeps (h₂.table rfl rfl rfl)

theorem gcData_meets (h : b.Keeps g ps) :
  Meets Fits (fun x => Keeps g ps x.2) (b.gcData g)
  := by
  apply gcWith_meets _ h
  intro b t _ hb
  apply gcSummarySegment_meets _ hb
  intro b' hb'
  apply getMapPpa_meets hb'

theorem openData_meets (h : b.Keeps g ps) :
  Meets Fits (Keeps g ps) (b.openData g)
  := by
  obtain ⟨sc, h⟩ := h
  apply (getSegment_active h).bind
  rintro ⟨t, b₁⟩ h₁
  exact Holds.keeps (h₁.table rfl rfl rfl)

theorem readyData_meets (h : b.Keeps g ps) :
  Meets Fits (Keeps g ps) (b.readyData g)
  := by
  unfold readyData
  split
  · apply h
  · split
    · apply (gcData_meets h).bind
      rintro ⟨res, b₁⟩ h₁
      dsimp only
      split
      · apply (meets_require (by decide)).bind
        intro _ _
        apply h₁
      · apply openData_meets h₁
    · apply openData_meets h

theorem pickEmptyPba_meets (h : b.Keeps g ps) :
  Meets Fits (fun x => Keeps g ps x.2) (b.pickEmptyPba g)
  := by
  apply (readyData_meets h).bind
  rintro b₁ ⟨sc, h₁⟩
  apply (meets_orThrow fun _ => by decide).bind
  intro t _
  exact Holds.keeps (h₁.table rfl rfl rfl)

/-! ### Looking for space -/

theorem countFree_meets {wanted : Option ℕ} (fuel : ℕ) :
  ∀ {b : L2pBm} {x : ℕ × Bool} {parked : List ℕ}, b.Holds g d s rs (parked ++ ps) →
    Meets Fits (fun y => Holds g d s rs (y.2.2.1 ++ ps) y.2.2.2)
      (countFree g wanted fuel x parked b)
  := by
  induction fuel with
  | zero =>
      intro b x parked _
      exact nofun
  | succ fuel ih =>
      intro b x parked h
      unfold countFree
      split
      · apply h
      · apply (getGcTarget_meets h).bind
        rintro ⟨target, b₁⟩ h₁
        cases target with
        | none => apply h₁
        | some t =>
            apply ih
            refine ⟨h₁.data, h₁.summary, h₁.reserves, h₁.popped.trans ?_, h₁.reach⟩
            simp only [Option.toList_some, List.singleton_append, List.append_assoc]
            apply List.perm_middle.symm

theorem looks_meets {wanted : Option ℕ} {fuel : ℕ} {x : ℕ × Bool} (h : b.Holds g d s rs ps) :
  Meets Fits (fun y => Holds g d s rs (y.2.2.1 ++ ps) y.2.2.2) (countFree g wanted fuel x [] b)
  := countFree_meets fuel h

theorem gcCheckEnoughSpace_meets {n : ℕ} (h : b.Keeps g ps) :
  Meets Fits (fun x => Keeps g ps x.2) (b.gcCheckEnoughSpace g n)
  := by
  unfold gcCheckEnoughSpace
  split
  · apply h
  · obtain ⟨sc, h⟩ := h
    apply (looks_meets h).bind
    rintro ⟨num, flag, parked, b₁⟩ h₁
    apply (insertParked_meets h₁).bind
    intro b₂ h₂
    apply h₂.keeps

theorem gcCheckFreeEnableSpace_meets (h : b.Keeps g ps) :
  Meets Fits (fun x => Keeps g ps x.2) (b.gcCheckFreeEnableSpace g)
  := by
  unfold gcCheckFreeEnableSpace
  obtain ⟨sc, h⟩ := h
  apply (looks_meets h).bind
  rintro ⟨num, flag, parked, b₁⟩ h₁
  apply (insertParked_meets h₁).bind
  intro b₂ h₂
  apply h₂.keeps

/-! ### Runs -/

/-- `L2PBm_init` holds the three reserves. -/
theorem init_meets {victims : List ℕ} :
  Meets Fits (Keeps g []) (init g victims)
  := by
  unfold init
  have h₀ : Holds g 0 0 [] []
      { pool := SegmentPool.create g
        segType := fun _ => .emptySeg
        pbaMap := fun _ => ⟨.lsmBlockEmpty, none⟩
        reserveSeg := 0
        reserveSummarySeg := 0
        nowSummarySeg := 0
        reserveBlockIdx := 0
        nowBlockIdx := 0
        nowSegIdx := none
        victims := victims } :=
    ⟨rfl, rfl, .refl _, .refl _, .refl _⟩
  apply (getSegment_reserve h₀).bind
  rintro ⟨t₁, b₁⟩ h₁
  have h₁' : Holds g t₁ 0 [t₁] [] { b₁.setSegType t₁ .dataSeg with reserveSeg := t₁ } :=
    ⟨rfl, h₁.summary, h₁.reserves, h₁.popped, h₁.reach⟩
  apply (getSegment_reserve h₁').bind
  rintro ⟨t₂, b₂⟩ h₂
  have h₂' : Holds g t₁ t₂ [t₂, t₁] []
      { b₂.setSegType t₂ .summarySeg with reserveSummarySeg := t₂ } :=
    ⟨h₂.data, rfl, h₂.reserves, h₂.popped, h₂.reach⟩
  apply (getSegment_active h₂').bind
  rintro ⟨t₃, b₃⟩ h₃
  have h₃' : Holds g t₁ t₂ [t₂, t₁] []
      { b₃.setSegType t₃ .summarySeg with nowSummarySeg := t₃ } :=
    h₃.table rfl rfl rfl
  apply (getSegment_reserve h₃').bind
  rintro ⟨t₄, b₄⟩ h₄
  have h₄' : Holds g t₁ t₂ [t₁, t₂, t₄] [] b₄ := by
    refine ⟨h₄.data, h₄.summary, h₄.reserves.trans ?_, h₄.popped, h₄.reach⟩
    apply (List.reverse_perm [t₁, t₂, t₄])
  apply h₄'.keeps

/-- Every call of the tree gives back or erases the victims it takes. -/
theorem step_meets (h : b.Keeps g []) (op : TableOp) :
  Meets Fits (Keeps g []) (step g b op)
  := by
  have hh := h
  obtain ⟨sc, hh⟩ := hh
  cases op with
  | pickEmptyPba =>
      apply (pickEmptyPba_meets h).bind
      intro x hx
      apply hx
  | getMapPpa =>
      apply (getMapPpa_meets h).bind
      intro x hx
      apply hx
  | makeMap pba sid intraIdx =>
      apply (makeMap_meets hh).mono
      intro b' hb'
      apply hb'.keeps
  | moveOwner pba sid intraIdx =>
      apply (moveOwner_meets hh).mono
      intro b' hb'
      apply hb'.keeps
  | validatePiecePpa q =>
      apply (validatePiecePpa_meets hh).mono
      intro b' hb'
      apply hb'.keeps
  | invalidatePiecePpa q force =>
      simp only [step]
      split
      · apply (invalidatePiecePpa_meets hh).mono
        intro b' hb'
        apply hb'.keeps
      · exact calm_keeps _ _ h trivial
  | setOob lbas ppa => apply calm_keeps b (.setOob lbas ppa) h trivial
  | gcCheckEnoughSpace n =>
      apply (gcCheckEnoughSpace_meets h).bind
      intro x hx
      apply hx
  | gcCheckFreeEnableSpace =>
      apply (gcCheckFreeEnableSpace_meets h).bind
      intro x hx
      apply hx

theorem exec_meets {victims : List ℕ} {ops : List TableOp} :
  Meets Fits (Keeps g []) (exec g victims ops)
  := by
  apply init_meets.bind
  induction ops with
  | nil =>
      intro b hb
      apply hb
  | cons op ops ih =>
      intro b hb
      apply (step_meets hb op).bind
      intro b' hb'
      apply ih b' hb'

/-- After every sequence of calls of the block manager, in which reserves become active and
victims are given back or erased, every segment is in exactly one place; no segment is handed
out twice; `total_free_page_num` counts the free segments; and the queue and the heap have room
for what is put into them.  The garbage collection of the tree calls the block manager in this
way and keeps no victim. -/
theorem segments_inOnePlace (g : Geometry) (cnt : Segment → ℤ) (calls : List SegmentOp) :
  Meets (fun _ => True)
    (fun p => p.OnePlace g ∧ p.HandsOutOnce g cnt ∧ p.CountsFree g ∧
      p.bm.freeSegmentQ.length + p.bm.maxHeap.length ≤ g.nos)
    (run (SegmentPool.step g cnt) (SegmentPool.create g) calls) ∧
  ∀ victims ops, Meets (· ≠ .wrongPhase)
    (fun b => b.pool.popped = [] ∧ (SegmentPool.create g).Reaches g g.heapCnt b.pool)
    (exec g victims ops)
  := by
  constructor
  · cases hrun : run (SegmentPool.step g cnt) (SegmentPool.create g) calls with
    | error e => trivial
    | ok p =>
        have hperm := SegmentPool.run_places hrun
        exact ⟨SegmentPool.onePlace_of_perm hperm, SegmentPool.handsOutOnce_of_perm hperm,
          SegmentPool.countsFree_of_perm hperm, SegmentPool.length_places_le hperm⟩
  · intro victims ops
    apply exec_meets.mono
    rintro b ⟨sc, hb⟩
    exact ⟨List.perm_nil.mp hb.popped, hb.reach⟩

-- a data segment is collected: segment 4 is erased and becomes the reserve in the place of 0
example :
  ((exec ⟨1, 2, 6, by decide, by decide⟩ [4]
    [.pickEmptyPba, .makeMap 8 0 0, .validatePiecePpa 32, .pickEmptyPba, .makeMap 9 0 1,
      .validatePiecePpa 36, .invalidatePiecePpa 36 true, .pickEmptyPba, .makeMap 10 0 2,
      .validatePiecePpa 40, .pickEmptyPba, .makeMap 11 0 3, .validatePiecePpa 44, .getMapPpa,
      .validatePiecePpa 16, .pickEmptyPba]).map fun b =>
    (b.pool.bm.freeSegmentQ, b.pool.bm.maxHeap, b.pool.reserves)) = .ok ([], [2, 5, 0], [4, 3, 1])
  := by decide +kernel

end L2pBm

end AppL
