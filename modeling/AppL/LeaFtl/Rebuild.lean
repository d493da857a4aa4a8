import AppL.LeaFtl.Mapping

/-!
# A level from a translation page

A translation page has for every address of its group the piece, or `INITIAL_STATE_PADDR`.
`map_to_onelevel` goes over the pieces, and makes an accurate segment of every run of pieces that
follow each other.
-/

namespace AppL

open Transition

namespace LeaFtl

/-! ### The scan -/

/-- The variables of the loop of `map_to_onelevel`; `runs` are the calls of
`map_make_segment_wrapper` so far, each with the start and the size. -/
structure Scan where
  prevPiecePpa : ℕ
  startIdx : ℕ
  targetSize : ℕ
  haveRemain : Bool
  runs : List (ℕ × ℕ)
  deriving DecidableEq, Repr

namespace Scan

/-- Before the loop. -/
def start (piecePpa : ℕ) : Scan := ⟨piecePpa, 0, 1, false, []⟩

variable (c : Scan)

/-- The branches of the loop, for the piece `piecePpa` at `i`.  The pieces are subtracted as
`uint32_t`. -/
def branch (i piecePpa : ℕ) : Scan :=
  if c.prevPiecePpa = uint32Max then
    { c with startIdx := i, targetSize := 1, haveRemain := true }
  else if (piecePpa + 2 ^ 32 - c.prevPiecePpa) % 2 ^ 32 = 1 then
    { c with targetSize := c.targetSize + 1, haveRemain := true }
  else if piecePpa = uint32Max then
    { c with runs := c.runs ++ [(c.startIdx, c.targetSize)], haveRemain := false }
  else
    { c with
      runs := c.runs ++ [(c.startIdx, c.targetSize)]
      startIdx := i
      targetSize := 1
      haveRemain := true }

/-- The end of a turn: after a hole there is no remaining run. -/
def endTurn (piecePpa : ℕ) : Scan :=
  if piecePpa = uint32Max then
    { c with haveRemain := false, prevPiecePpa := piecePpa }
  else
    { c with prevPiecePpa := piecePpa }

/-- One turn of the loop. -/
def turn (i piecePpa : ℕ) : Scan := (c.branch i piecePpa).endTurn piecePpa

/-- After the loop. -/
def finish : List (ℕ × ℕ) :=
  if c.haveRemain then c.runs ++ [(c.startIdx, c.targetSize)] else c.runs

end Scan

/-- The calls of `map_make_segment_wrapper` for the pieces of `size` addresses. -/
def scanRuns (piecePpa : ℕ → ℕ) (size : ℕ) : List (ℕ × ℕ) :=
  ((List.range' 1 (size - 1)).foldl (fun c i => c.turn i (piecePpa i))
    (Scan.start (piecePpa 0))).finish

/-! ### The level -/

/-- An entry of the array `piece_ppa`. -/
def pieceAt (piecePpa : List ℕ) (i : ℕ) : ℕ := piecePpa[i]?.getD 0

section Level

variable {P : Type} (pr : Predictor P)

namespace Globals

/-- `map_make_segment_wrapper`. -/
def mapMakeSegmentWrapper (s : Globals) (tmap : TempMap) : Except Abort (Globals × Segment P) := do
  let res ← segmentMake pr tmap .accurate (if tmap.lba.length = 1 then 0 else 1) 0 s.cnt
  return ({ s with cnt := s.cnt + 1 }.setSegFastSearch tmap.lba res.seq, res)

/-- A run becomes a segment at the end of the level (`level_link_seg`), and its addresses leave the
conflict buffer (`master_crb_remove`). -/
def linkRun (mapIdx : ℕ) (lba piecePpa : List ℕ) (x : Globals × Level P) (r : ℕ × ℕ) :
    Except Abort (Globals × Level P) := do
  let tmap : TempMap := ⟨(lba.drop r.1).take r.2, (piecePpa.drop r.1).take r.2⟩
  let (s, target) ← x.1.mapMakeSegmentWrapper pr tmap
  return (s.crbRemoveOverlap tmap mapIdx,
    { x.2 with segs := x.2.segs ++ [{ target with levelPtr := some x.2.ptr }] })

/-- The addresses of a group. -/
def groupLba (mapIdx : ℕ) : List ℕ := (List.range mapInTrans).map (mapIdx * mapInTrans + ·)

/-- `map_to_onelevel`. -/
def mapToOnelevel (s : Globals) (mapIdx : ℕ) (tLba : Option (List ℕ)) (piecePpa : List ℕ) :
    Except Abort (Globals × Level P) :=
  let lba := tLba.getD (groupLba mapIdx)
  (scanRuns (pieceAt piecePpa) mapInTrans).foldlM (linkRun pr mapIdx lba piecePpa)
    ({ s with levelCnt := s.levelCnt + 1 }, ⟨s.levelCnt, []⟩)

end Globals

end Level

/-! ### Runs of pieces -/

theorem pieceAt_le {piecePpa : List ℕ} (hrange : ∀ p ∈ piecePpa, p ≤ uint32Max) (j : ℕ) :
  pieceAt piecePpa j ≤ uint32Max
  := by
  unfold pieceAt
  cases hj : piecePpa[j]? with
  | none => apply Nat.zero_le _
  | some p => apply hrange p (List.mem_of_getElem? hj)

/-- The places of a run have pieces that follow each other, and the run does not go on behind
its end. -/
structure IsRun (piecePpa : ℕ → ℕ) (n : ℕ) (r : ℕ × ℕ) : Prop where
  pos : 0 < r.2
  piece : ∀ k < r.2, piecePpa (r.1 + k) = piecePpa r.1 + k
  mapped : ∀ k < r.2, piecePpa (r.1 + k) ≠ uint32Max
  ends : r.1 + r.2 < n → piecePpa (r.1 + r.2) ≠ piecePpa (r.1 + r.2 - 1) + 1

/-- A place lies in a run. -/
def InRun (j : ℕ) (r : ℕ × ℕ) : Prop := r.1 ≤ j ∧ j < r.1 + r.2

/-- The largest piece address is not followed by a hole. -/
def NoHoleAfterLast (piecePpa : ℕ → ℕ) (n : ℕ) : Prop :=
  ∀ j, j + 1 < n → piecePpa j + 1 = uint32Max → piecePpa (j + 1) ≠ uint32Max

/-- The variables of the loop when `i` pieces have been read.  After a hole, all runs are made;
otherwise the last run is open. -/
structure Scan.Inv (piecePpa : ℕ → ℕ) (n i : ℕ) (c : Scan) : Prop where
  prev : c.prevPiecePpa = piecePpa (i - 1)
  runs : ∀ r ∈ c.runs, IsRun piecePpa n r
  ordered : c.runs.Pairwise fun r r' => r.1 + r.2 ≤ r'.1
  before : ∀ r ∈ c.runs, r.1 + r.2 ≤ i
  remain : 1 < i → (c.haveRemain = true ↔ c.prevPiecePpa ≠ uint32Max)
  opened : c.prevPiecePpa ≠ uint32Max →
    c.startIdx + c.targetSize = i ∧ 0 < c.targetSize ∧
    (∀ k < c.targetSize, piecePpa (c.startIdx + k) = piecePpa c.startIdx + k) ∧
    (∀ k < c.targetSize, piecePpa (c.startIdx + k) ≠ uint32Max) ∧
    ∀ r ∈ c.runs, r.1 + r.2 ≤ c.startIdx
  covered : NoHoleAfterLast piecePpa n → ∀ j < i, piecePpa j ≠ uint32Max →
    (∃ r ∈ c.runs, InRun j r) ∨ c.prevPiecePpa ≠ uint32Max ∧ c.startIdx ≤ j

theorem Scan.inv_start (piecePpa : ℕ → ℕ) (n : ℕ) :
  (Scan.start (piecePpa 0)).Inv piecePpa n 1
  where
    prev := rfl
    runs r hr := by cases hr
    ordered := List.Pairwise.nil
    before r hr := by cases hr
    remain h := absurd h (Nat.lt_irrefl 1)
    opened hne := by
      refine ⟨rfl, Nat.one_pos, ?_, ?_, ?_⟩
      · intro k hk
        obtain rfl : k = 0 := Nat.lt_one_iff.mp hk
        rfl
      · intro k hk
        obtain rfl : k = 0 := Nat.lt_one_iff.mp hk
        apply hne
      · intro r hr
        cases hr
    covered _ j hj hne := by
      obtain rfl : j = 0 := Nat.lt_one_iff.mp hj
      apply Or.inr ⟨hne, Nat.le_refl _⟩

theorem Scan.turn_eq (c : Scan) (i p : ℕ) :
  c.turn i p = ⟨p, (c.branch i p).startIdx, (c.branch i p).targetSize,
    (c.branch i p).haveRemain && !decide (p = uint32Max), (c.branch i p).runs⟩
  := by
  unfold Scan.turn Scan.endTurn
  split
  · rename_i h
    simp [h]
  · rename_i h
    simp [h]

namespace Scan.Inv

variable {piecePpa : ℕ → ℕ} {n i : ℕ} {c : Scan}

/-- The open run is made. -/
theorem close (h : c.Inv piecePpa n i) (hopen : c.prevPiecePpa ≠ uint32Max)
    (hends : i < n → piecePpa i ≠ piecePpa (i - 1) + 1) :
  (∀ r ∈ c.runs ++ [(c.startIdx, c.targetSize)], IsRun piecePpa n r) ∧
  (c.runs ++ [(c.startIdx, c.targetSize)]).Pairwise (fun r r' => r.1 + r.2 ≤ r'.1) ∧
  (∀ r ∈ c.runs ++ [(c.startIdx, c.targetSize)], r.1 + r.2 ≤ i) ∧
  (NoHoleAfterLast piecePpa n → ∀ j < i, piecePpa j ≠ uint32Max →
    ∃ r ∈ c.runs ++ [(c.startIdx, c.targetSize)], InRun j r)
  := by
  obtain ⟨htotal, hpos, hpiece, hmapped, hbefore⟩ := h.opened hopen
  refine ⟨?_, ?_, ?_, ?_⟩
  · intro r hr
    rcases List.mem_append.mp hr with hr | hr
    · apply h.runs r hr
    · obtain rfl := List.mem_singleton.mp hr
      use hpos, hpiece, hmapped
      intro hlt
      dsimp only at hlt ⊢
      rw [htotal] at hlt ⊢
      apply hends hlt
  · rw [List.pairwise_append]
    use h.ordered, List.pairwise_singleton _ _
    intro r hr r' hr'
    obtain rfl := List.mem_singleton.mp hr'
    apply hbefore r hr
  · intro r hr
    rcases List.mem_append.mp hr with hr | hr
    · apply h.before r hr
    · obtain rfl := List.mem_singleton.mp hr
      apply htotal.le
  · intro hlast j hj hne
    rcases h.covered hlast j hj hne with ⟨r, hr, hin⟩ | ⟨-, hle⟩
    · exact ⟨r, List.mem_append_left _ hr, hin⟩
    · refine ⟨_, List.mem_append_right _ (List.mem_singleton_self _), hle, ?_⟩
      dsimp only
      omega

/-- A turn after a hole: a run starts. -/
theorem turn_afterHole (h : c.Inv piecePpa n i) (hhole : c.prevPiecePpa = uint32Max) :
  (c.turn i (piecePpa i)).Inv piecePpa n (i + 1)
  := by
  rw [turn_eq, Scan.branch, if_pos hhole]
  constructor
  · rfl
  · apply h.runs
  · apply h.ordered
  · intro r hr
    apply (h.before r hr).trans (Nat.le_succ i)
  · intro _
    simp
  · intro hne
    refine ⟨rfl, Nat.one_pos, ?_, ?_, h.before⟩
    · intro k hk
      obtain rfl : k = 0 := Nat.lt_one_iff.mp hk
      rfl
    · intro k hk
      obtain rfl : k = 0 := Nat.lt_one_iff.mp hk
      apply hne
  · intro hlast j hj hne
    rcases Nat.lt_succ_iff_lt_or_eq.mp hj with hlt | rfl
    · rcases h.covered hlast j hlt hne with hrun | ⟨hopen, -⟩
      · apply Or.inl hrun
      · exact absurd hhole hopen
    · apply Or.inr ⟨hne, Nat.le_refl _⟩

/-- A turn with the next piece: the run goes on. -/
theorem turn_next (h : c.Inv piecePpa n i) (hi : 0 < i) (hin : i < n)
    (hhole : c.prevPiecePpa ≠ uint32Max)
    (hnext : (piecePpa i + 2 ^ 32 - c.prevPiecePpa) % 2 ^ 32 = 1)
    (hsucc : piecePpa i = piecePpa (i - 1) + 1) :
  (c.turn i (piecePpa i)).Inv piecePpa n (i + 1)
  := by
  obtain ⟨htotal, hpos, hpiece, hmapped, hbefore⟩ := h.opened hhole
  rw [turn_eq, Scan.branch, if_neg hhole, if_pos hnext]
  constructor
  · rfl
  · apply h.runs
  · apply h.ordered
  · intro r hr
    apply (h.before r hr).trans (Nat.le_succ i)
  · intro _
    simp
  · intro hne
    refine ⟨?_, Nat.succ_pos _, ?_, ?_, hbefore⟩
    · dsimp only
      omega
    · intro k hk
      rcases Nat.lt_succ_iff_lt_or_eq.mp hk with hlt | rfl
      · apply hpiece k hlt
      · have hlastpiece := hpiece (c.targetSize - 1) (by omega)
        rw [show c.startIdx + (c.targetSize - 1) = i - 1 by omega] at hlastpiece
        dsimp only
        rw [htotal, hsucc, hlastpiece]
        omega
    · intro k hk
      rcases Nat.lt_succ_iff_lt_or_eq.mp hk with hlt | rfl
      · apply hmapped k hlt
      · dsimp only
        rw [htotal]
        apply hne
  · intro hlast j hj hne
    have hne' : piecePpa i ≠ uint32Max := by
      have hafter := hlast (i - 1) (by omega)
      rw [show i - 1 + 1 = i by omega] at hafter
      intro heq
      exact hafter (hsucc ▸ heq) heq
    rcases Nat.lt_succ_iff_lt_or_eq.mp hj with hlt | rfl
    · rcases h.covered hlast j hlt hne with hrun | ⟨-, hstart⟩
      · apply Or.inl hrun
      · apply Or.inr ⟨hne', hstart⟩
    · refine Or.inr ⟨hne', ?_⟩
      dsimp only
      omega

/-- A turn with another piece or a hole: the run ends. -/
theorem turn_end (h : c.Inv piecePpa n i) (hhole : c.prevPiecePpa ≠ uint32Max)
    (hnext : ¬ (piecePpa i + 2 ^ 32 - c.prevPiecePpa) % 2 ^ 32 = 1)
    (hends : piecePpa i ≠ piecePpa (i - 1) + 1) :
  (c.turn i (piecePpa i)).Inv piecePpa n (i + 1)
  := by
  obtain ⟨hruns, hordered, hbefore, hcovered⟩ := h.close hhole fun _ => hends
  have hafter : ∀ r ∈ c.runs ++ [(c.startIdx, c.targetSize)], r.1 + r.2 ≤ i + 1 := by
    intro r hr
    apply (hbefore r hr).trans (Nat.le_succ i)
  rw [turn_eq, Scan.branch, if_neg hhole, if_neg hnext]
  by_cases hnew : piecePpa i = uint32Max
  · rw [if_pos hnew]
    constructor
    · rfl
    · apply hruns
    · apply hordered
    · apply hafter
    · intro _
      simp [hnew]
    · intro hne
      exact absurd hnew hne
    · intro hlast j hj hne
      rcases Nat.lt_succ_iff_lt_or_eq.mp hj with hlt | rfl
      · apply Or.inl (hcovered hlast j hlt hne)
      · exact absurd hnew hne
  · rw [if_neg hnew]
    constructor
    · rfl
    · apply hruns
    · apply hordered
    · apply hafter
    · intro _
      simp
    · intro hne
      refine ⟨rfl, Nat.one_pos, ?_, ?_, hbefore⟩
      · intro k hk
        obtain rfl : k = 0 := Nat.lt_one_iff.mp hk
        rfl
      · intro k hk
        obtain rfl : k = 0 := Nat.lt_one_iff.mp hk
        apply hne
    · intro hlast j hj hne
      rcases Nat.lt_succ_iff_lt_or_eq.mp hj with hlt | rfl
      · apply Or.inl (hcovered hlast j hlt hne)
      · apply Or.inr ⟨hnew, Nat.le_refl _⟩

/-- One turn of the loop. -/
theorem turn (h : c.Inv piecePpa n i) (hi : 0 < i) (hin : i < n)
    (hrange : ∀ j, piecePpa j ≤ uint32Max) :
  (c.turn i (piecePpa i)).Inv piecePpa n (i + 1)
  := by
  have hprev := h.prev
  have hle := hrange (i - 1)
  have hle' := hrange i
  by_cases hhole : c.prevPiecePpa = uint32Max
  · apply h.turn_afterHole hhole
  · have hdiff : (piecePpa i + 2 ^ 32 - c.prevPiecePpa) % 2 ^ 32 = 1
        ↔ piecePpa i = piecePpa (i - 1) + 1 := by
      unfold uint32Max at hle hle' hhole
      omega
    by_cases hnext : (piecePpa i + 2 ^ 32 - c.prevPiecePpa) % 2 ^ 32 = 1
    · apply h.turn_next hi hin hhole hnext (hdiff.mp hnext)
    · apply h.turn_end hhole hnext fun heq => hnext (hdiff.mpr heq)

/-- The whole loop. -/
theorem loop (hrange : ∀ j, piecePpa j ≤ uint32Max) (m : ℕ) :
  m < n → ((List.range' 1 m).foldl (fun c i => c.turn i (piecePpa i))
    (Scan.start (piecePpa 0))).Inv piecePpa n (m + 1)
  := by
  induction m with
  | zero =>
      intro _
      apply Scan.inv_start piecePpa n
  | succ m ih =>
      intro hm
      rw [List.range'_1_concat, List.foldl_append, Nat.add_comm 1 m]
      apply (ih (by omega)).turn (Nat.succ_pos m) hm hrange

end Scan.Inv

/-- The runs of the pieces: they are in the order of the addresses and have no address in common;
when the largest piece address is not followed by a hole, they have every address with a piece. -/
theorem scanRuns_spec {piecePpa : ℕ → ℕ} {n : ℕ} (hn : 1 < n)
    (hrange : ∀ j, piecePpa j ≤ uint32Max) :
  (∀ r ∈ scanRuns piecePpa n, IsRun piecePpa n r) ∧
  (scanRuns piecePpa n).Pairwise (fun r r' => r.1 + r.2 ≤ r'.1) ∧
  (∀ r ∈ scanRuns piecePpa n, r.1 + r.2 ≤ n) ∧
  (NoHoleAfterLast piecePpa n → ∀ j < n, piecePpa j ≠ uint32Max →
    ∃ r ∈ scanRuns piecePpa n, InRun j r)
  := by
  have h := Scan.Inv.loop (n := n) hrange (n - 1) (by omega)
  rw [show n - 1 + 1 = n by omega] at h
  unfold scanRuns Scan.finish
  split
  · rename_i hremain
    apply h.close ((h.remain hn).mp hremain) fun hlt => absurd hlt (Nat.lt_irrefl n)
  · rename_i hremain
    rw [h.remain hn, not_not] at hremain
    use h.runs, h.ordered, h.before
    intro hlast j hj hne
    rcases h.covered hlast j hj hne with hrun | ⟨hopen, -⟩
    · apply hrun
    · exact absurd hremain hopen

/-- The largest piece address lies in a run only when no hole follows it. -/
theorem IsRun.no_hole {piecePpa : ℕ → ℕ} {n j : ℕ} {r : ℕ × ℕ} (hrun : IsRun piecePpa n r)
    (hin : InRun j r) (hj : j + 1 < n) (hlast : piecePpa j + 1 = uint32Max) :
  piecePpa (j + 1) ≠ uint32Max
  := by
  obtain ⟨hstart, hend⟩ := hin
  rcases Nat.lt_or_ge (j + 1) (r.1 + r.2) with hlt | hge
  · have hmapped := hrun.mapped (j + 1 - r.1) (by omega)
    rwa [show r.1 + (j + 1 - r.1) = j + 1 by omega] at hmapped
  · have hends := hrun.ends (by omega)
    rw [show r.1 + r.2 = j + 1 by omega, Nat.add_sub_cancel] at hends
    omega

/-- The runs have exactly the addresses with a piece when the largest piece address is not followed
by a hole. -/
theorem mem_scanRuns_iff {piecePpa : ℕ → ℕ} {n : ℕ} (hn : 1 < n)
    (hrange : ∀ j, piecePpa j ≤ uint32Max) :
  (∀ j < n, (∃ r ∈ scanRuns piecePpa n, InRun j r) ↔ piecePpa j ≠ uint32Max)
    ↔ NoHoleAfterLast piecePpa n
  := by
  obtain ⟨hruns, -, -, hcovered⟩ := scanRuns_spec hn hrange
  constructor
  · intro hmem j hj hlast hhole
    have hne : piecePpa j ≠ uint32Max := by omega
    obtain ⟨r, hr, hin⟩ := (hmem j (by omega)).mpr hne
    apply (hruns r hr).no_hole hin hj hlast hhole
  · intro hlast j hj
    constructor
    · rintro ⟨r, hr, hstart, hend⟩
      have hmapped := (hruns r hr).mapped (j - r.1) (by omega)
      rwa [show r.1 + (j - r.1) = j by omega] at hmapped
    · apply hcovered hlast j hj

/-! ### Segments of the runs -/

section Level

variable {P : Type} (pr : Predictor P)

/-- The segment of a run. -/
structure RunSeg (mapIdx : ℕ) (piecePpa : ℕ → ℕ) (r : ℕ × ℕ) (seg : Segment P) : Prop where
  originalStart : seg.originalStart = mapIdx * mapInTrans + r.1
  start : seg.start = mapIdx * mapInTrans + r.1
  endLba : seg.endLba + 1 = mapIdx * mapInTrans + r.1 + r.2
  startPiecePpa : seg.startPiecePpa = piecePpa r.1
  body : seg.body = .interval (if r.2 = 1 then 0 else 1)

/-- What a level from a translation page has to be: its segments are sorted and disjoint, an address
of the group lies in one of them exactly when it has a piece, and then it has this piece there. -/
structure Rebuilt (mapIdx : ℕ) (piecePpa : ℕ → ℕ) (lev : Level P) : Prop where
  sorted : lev.segs.Pairwise fun a b => a.start < b.start
  disjoint : lev.segs.Pairwise fun a b => a.endLba < b.start
  mem : ∀ j < mapInTrans,
    (∃ seg ∈ lev.segs, segmentAccInclude seg (mapIdx * mapInTrans + j) = .ok true)
      ↔ piecePpa j ≠ uint32Max
  addr : ∀ j < mapInTrans, ∀ seg ∈ lev.segs,
    segmentAccInclude seg (mapIdx * mapInTrans + j) = .ok true →
    segmentGetAddr pr seg (mapIdx * mapInTrans + j) = piecePpa j

variable {pr} {mapIdx : ℕ} {piecePpa : ℕ → ℕ} {n : ℕ} {r : ℕ × ℕ} {seg : Segment P}

/-- The segment of a run has the addresses of the run. -/
theorem RunSeg.include_iff (h : RunSeg mapIdx piecePpa r seg) (j : ℕ) :
  segmentAccInclude seg (mapIdx * mapInTrans + j) = .ok true ↔ InRun j r
  := by
  have hstart := h.start
  have hend := h.endLba
  have htype : seg.type = .accurate := by rw [Segment.type, h.body]
  have hstride : ¬ (seg.body.asInterval ≠ 0 ∧
      (mapIdx * mapInTrans + j - seg.start) % seg.body.asInterval ≠ 0) := by
    rw [h.body, Content.asInterval]
    split
    · exact fun hne => hne.1 rfl
    · exact fun hne => hne.2 (Nat.mod_one _)
  have hvalue : segmentAccInclude seg (mapIdx * mapInTrans + j)
      = .ok (!decide (seg.endLba < mapIdx * mapInTrans + j ∨ seg.start > mapIdx * mapInTrans + j)) := by
    apply bind_eq_ok.mpr
    use (), require_eq_ok.mpr htype
    rw [if_neg hstride]
    split
    · rename_i hout
      simp [hout]
      rfl
    · rename_i hin
      simp [hin]
      rfl
  rw [hvalue, Except.ok.injEq, Bool.not_eq_true', decide_eq_false_iff_not, InRun]
  omega

/-- The segment of a run gives the pieces of the run. -/
theorem RunSeg.getAddr (h : RunSeg mapIdx piecePpa r seg) (hrun : IsRun piecePpa n r) {j : ℕ}
    (hj : InRun j r) :
  segmentGetAddr pr seg (mapIdx * mapInTrans + j) = piecePpa j
  := by
  obtain ⟨hstart, hend⟩ := hj
  have hpiece := hrun.piece (j - r.1) (by omega)
  rw [show r.1 + (j - r.1) = j by omega] at hpiece
  have hstride : (if r.2 = 1 then 0 else 1) ≤ 1 := by
    split <;> decide
  rw [segmentGetAddr, h.body]
  dsimp only
  rw [if_pos hstride, Nat.div_one, h.originalStart, h.startPiecePpa, hpiece]
  omega

/-- Making and linking the segment of one run. -/
theorem linkRun_ok {piecePpa : List ℕ} (hlen : piecePpa.length = mapInTrans)
    (x : Globals × Level P) {r : ℕ × ℕ} (hpos : 0 < r.2) (hend : r.1 + r.2 ≤ mapInTrans) :
  ∃ y seg, Globals.linkRun pr mapIdx (Globals.groupLba mapIdx) piecePpa x r = .ok y ∧
    y.2.segs = x.2.segs ++ [seg] ∧ RunSeg mapIdx (pieceAt piecePpa) r seg
  := by
  have hlba : ((Globals.groupLba mapIdx).drop r.1).take r.2
      = (List.range' r.1 r.2).map (mapIdx * mapInTrans + ·) := by
    rw [Globals.groupLba, ← List.map_drop, ← List.map_take, List.range_eq_range', List.drop_range',
      List.take_range'_of_length_ge (by omega), Nat.zero_add, Nat.mul_one]
  obtain ⟨size, hsize⟩ : ∃ size, r.2 = size + 1 := Nat.exists_eq_succ_of_ne_zero (by omega)
  have hpiece : ((piecePpa.drop r.1).take r.2).head? = some (pieceAt piecePpa r.1) := by
    have hlt : r.1 < piecePpa.length := by omega
    rw [hsize, List.head?_take, if_neg (Nat.succ_ne_zero size), List.head?_drop,
      pieceAt, List.getElem?_eq_getElem hlt]
    rfl
  have hhead : ((List.range' r.1 r.2).map (mapIdx * mapInTrans + ·)).head?
      = some (mapIdx * mapInTrans + r.1) := by
    rw [List.head?_map, List.head?_range', if_neg (by omega)]
    rfl
  have hlast : ((List.range' r.1 r.2).map (mapIdx * mapInTrans + ·)).getLast?
      = some (mapIdx * mapInTrans + (r.1 + r.2 - 1)) := by
    rw [List.getLast?_map, List.getLast?_range', if_neg (by omega)]
    rfl
  have hlength : ((List.range' r.1 r.2).map (mapIdx * mapInTrans + ·)).length = r.2 := by
    rw [List.length_map, List.length_range']
  rw [← hlba] at hhead hlast hlength
  have hmake := @segmentMake_accurate P pr
    ⟨((Globals.groupLba mapIdx).drop r.1).take r.2, (piecePpa.drop r.1).take r.2⟩ _ _ _ hhead hlast
    hpiece (if r.2 = 1 then 0 else 1) 0 x.1.cnt
  have hlink : ∃ y, Globals.linkRun pr mapIdx (Globals.groupLba mapIdx) piecePpa x r = .ok y ∧
      y.2.segs = x.2.segs ++ [⟨mapIdx * mapInTrans + r.1, mapIdx * mapInTrans + r.1,
        mapIdx * mapInTrans + (r.1 + r.2 - 1), pieceAt piecePpa r.1,
        .interval (if r.2 = 1 then 0 else 1), some x.2.ptr, x.1.cnt⟩] := by
    unfold Globals.linkRun Globals.mapMakeSegmentWrapper
    dsimp only
    rw [hlength, hmake]
    exact ⟨_, rfl, rfl⟩
  obtain ⟨y, hy, hsegs⟩ := hlink
  refine ⟨y, _, hy, hsegs, ?_⟩
  constructor
  · rfl
  · rfl
  · dsimp only
    omega
  · rfl
  · rfl

/-- Making and linking the segments of runs. -/
theorem linkRuns_ok {piecePpa : List ℕ} (hlen : piecePpa.length = mapInTrans) (l : List (ℕ × ℕ)) :
  ∀ x : Globals × Level P, (∀ r ∈ l, 0 < r.2 ∧ r.1 + r.2 ≤ mapInTrans) →
    ∃ y segs, l.foldlM (Globals.linkRun pr mapIdx (Globals.groupLba mapIdx) piecePpa) x = .ok y ∧
      y.2.segs = x.2.segs ++ segs ∧
      List.Forall₂ (RunSeg mapIdx (pieceAt piecePpa)) l segs
  := by
  induction l with
  | nil =>
      intro x _
      use x, [], rfl, (List.append_nil _).symm, List.Forall₂.nil
  | cons r l ih =>
      intro x hl
      obtain ⟨hpos, hend⟩ := hl r (List.mem_cons_self ..)
      obtain ⟨y, seg, hlink, hy, hseg⟩ := @linkRun_ok P pr mapIdx _ hlen x r hpos hend
      obtain ⟨z, segs, hrest, hz, hsegs⟩ := ih y fun r' hr' => hl r' (List.mem_cons_of_mem _ hr')
      refine ⟨z, seg :: segs, ?_, ?_, List.Forall₂.cons hseg hsegs⟩
      · rw [List.foldlM_cons]
        apply bind_eq_ok.mpr ⟨y, hlink, hrest⟩
      · rw [hz, hy, List.append_assoc]
        rfl

theorem forall₂_exists {α β : Type} {R : α → β → Prop} {l : List α} {m : List β}
    (h : List.Forall₂ R l m) :
  (∀ b ∈ m, ∃ a ∈ l, R a b) ∧ ∀ a ∈ l, ∃ b ∈ m, R a b
  := by
  induction h with
  | nil =>
      constructor
      · intro b hb
        cases hb
      · intro a ha
        cases ha
  | cons hab h ih =>
      constructor
      · intro b hb
        rcases List.mem_cons.mp hb with rfl | hb
        · exact ⟨_, List.mem_cons_self .., hab⟩
        · obtain ⟨a, ha, hR⟩ := ih.1 b hb
          use a, List.mem_cons_of_mem _ ha, hR
      · intro a ha
        rcases List.mem_cons.mp ha with rfl | ha
        · exact ⟨_, List.mem_cons_self .., hab⟩
        · obtain ⟨b, hb, hR⟩ := ih.2 a ha
          use b, List.mem_cons_of_mem _ hb, hR

theorem forall₂_pairwise {α β : Type} {R : α → β → Prop} {S : α → α → Prop} {T : β → β → Prop}
    (hT : ∀ a a' b b', R a b → R a' b' → S a a' → T b b') {l : List α} {m : List β}
    (h : List.Forall₂ R l m) (hS : l.Pairwise S) :
  m.Pairwise T
  := by
  induction h with
  | nil => apply List.Pairwise.nil
  | cons hab h ih =>
      obtain ⟨hhead, htail⟩ := List.pairwise_cons.mp hS
      apply List.Pairwise.cons
      · intro b' hb'
        obtain ⟨a', ha', hR⟩ := (forall₂_exists h).1 b' hb'
        apply hT _ _ _ _ hab hR (hhead a' ha')
      · apply ih htail

/-- The segments of the runs make a level as it has to be when the largest piece address is not
followed by a hole. -/
theorem rebuilt_iff {piecePpa : ℕ → ℕ} {lev : Level P} (hrange : ∀ j, piecePpa j ≤ uint32Max)
    (hsegs : List.Forall₂ (RunSeg mapIdx piecePpa) (scanRuns piecePpa mapInTrans) lev.segs) :
  Rebuilt pr mapIdx piecePpa lev ↔ NoHoleAfterLast piecePpa mapInTrans
  := by
  have hn : 1 < mapInTrans := by decide
  obtain ⟨hruns, hordered, -, -⟩ := scanRuns_spec hn hrange
  obtain ⟨hback, hforth⟩ := forall₂_exists hsegs
  have hmem : ∀ j, (∃ seg ∈ lev.segs, segmentAccInclude seg (mapIdx * mapInTrans + j) = .ok true)
      ↔ ∃ r ∈ scanRuns piecePpa mapInTrans, InRun j r := by
    intro j
    constructor
    · rintro ⟨seg, hseg, hin⟩
      obtain ⟨r, hr, hrs⟩ := hback seg hseg
      exact ⟨r, hr, (hrs.include_iff j).mp hin⟩
    · rintro ⟨r, hr, hin⟩
      obtain ⟨seg, hseg, hrs⟩ := hforth r hr
      use seg, hseg, (hrs.include_iff j).mpr hin
  rw [← mem_scanRuns_iff hn hrange]
  constructor
  · intro h j hj
    rw [← hmem]
    apply h.mem j hj
  · intro h
    refine ⟨?_, ?_, ?_, ?_⟩
    · have hpairs : (scanRuns piecePpa mapInTrans).Pairwise
          fun r r' => 0 < r.2 ∧ r.1 + r.2 ≤ r'.1 := by
        apply List.Pairwise.imp_of_mem _ hordered
        intro r r' hr _ hle
        use (hruns r hr).pos, hle
      apply forall₂_pairwise _ hsegs hpairs
      intro r r' a b ha hb hle
      rw [ha.start, hb.start]
      omega
    · apply forall₂_pairwise _ hsegs hordered
      intro r r' a b ha hb hle
      have hend := ha.endLba
      rw [hb.start]
      omega
    · intro j hj
      rw [hmem]
      apply h j hj
    · intro j _ seg hseg hin
      obtain ⟨r, hr, hrs⟩ := hback seg hseg
      apply hrs.getAddr (hruns r hr) ((hrs.include_iff j).mp hin)

/-- `map_to_onelevel` makes the segments of the runs. -/
theorem mapToOnelevel_ok (s : Globals) {tLba : Option (List ℕ)} {piecePpa : List ℕ}
    (hlba : ∀ l, tLba = some l → l = Globals.groupLba mapIdx)
    (hlen : piecePpa.length = mapInTrans) (hrange : ∀ j, pieceAt piecePpa j ≤ uint32Max) :
  ∃ s' lev, s.mapToOnelevel pr mapIdx tLba piecePpa = .ok (s', lev) ∧
    List.Forall₂ (RunSeg mapIdx (pieceAt piecePpa))
      (scanRuns (pieceAt piecePpa) mapInTrans) lev.segs
  := by
  have hlba' : tLba.getD (Globals.groupLba mapIdx) = Globals.groupLba mapIdx := by
    cases tLba with
    | none => rw [Option.getD_none]
    | some l => rw [Option.getD_some, hlba l rfl]
  have hn : 1 < mapInTrans := by decide
  obtain ⟨hruns, -, hend, -⟩ := scanRuns_spec hn hrange
  obtain ⟨y, segs, hrun, hy, hsegs⟩ := @linkRuns_ok P pr mapIdx _ hlen
    (scanRuns (pieceAt piecePpa) mapInTrans)
    ({ s with levelCnt := s.levelCnt + 1 }, ⟨s.levelCnt, []⟩)
    fun r hr => ⟨(hruns r hr).pos, hend r hr⟩
  refine ⟨y.1, y.2, ?_, ?_⟩
  · unfold Globals.mapToOnelevel
    dsimp only
    rw [hlba']
    apply hrun
  · rw [hy]
    apply hsegs

/-- A level from a translation page is as it has to be exactly when the largest piece address,
`UINT32_MAX - 1`, is not followed by a hole. -/
theorem mapToOnelevel_iff (pr : Predictor P) (s : Globals) (mapIdx : ℕ) {tLba : Option (List ℕ)}
    {piecePpa : List ℕ} (hlba : ∀ l, tLba = some l → l = Globals.groupLba mapIdx)
    (hlen : piecePpa.length = mapInTrans) (hrange : ∀ p ∈ piecePpa, p ≤ uint32Max) :
  ∃ s' lev, s.mapToOnelevel pr mapIdx tLba piecePpa = .ok (s', lev) ∧
    (Rebuilt pr mapIdx (pieceAt piecePpa) lev ↔
      NoHoleAfterLast (pieceAt piecePpa) mapInTrans)
  := by
  have hrange' := pieceAt_le hrange
  obtain ⟨s', lev, hrun, hsegs⟩ := @mapToOnelevel_ok P pr mapIdx s _ _ hlba hlen hrange'
  exact ⟨s', lev, hrun, rebuilt_iff hrange' hsegs⟩

/-- A device whose piece addresses are below the value of a hole has no piece
`UINT32_MAX - 1`: its pieces come four in a page. -/
theorem ne_last_of_piece {n p : ℕ} (hdev : n * l2pgap ≤ uint32Max) (hp : p < n * l2pgap) :
  p + 1 ≠ uint32Max
  := by
  simp only [l2pgap, uint32Max] at hdev hp ⊢
  omega

/-- A translation page whose entries are pieces of the device or holes is rebuilt as it has to
be. -/
theorem mapToOnelevel_rebuilt (pr : Predictor P) (g : Geometry) (s : Globals) (mapIdx : ℕ)
    {tLba : Option (List ℕ)} {piecePpa : List ℕ}
    (hlba : ∀ l, tLba = some l → l = Globals.groupLba mapIdx)
    (hlen : piecePpa.length = mapInTrans) (hdev : g.nos * g.pps * l2pgap ≤ uint32Max)
    (hpieces : ∀ p ∈ piecePpa, p = uint32Max ∨ p < g.nos * g.pps * l2pgap) :
  ∃ s' lev, s.mapToOnelevel pr mapIdx tLba piecePpa = .ok (s', lev) ∧
    Rebuilt pr mapIdx (pieceAt piecePpa) lev
  := by
  have hrange : ∀ p ∈ piecePpa, p ≤ uint32Max := by
    intro p hp
    rcases hpieces p hp with rfl | hlt
    · apply Nat.le_refl
    · omega
  obtain ⟨s', lev, hrun, hiff⟩ := mapToOnelevel_iff pr s mapIdx hlba hlen hrange
  use s', lev, hrun
  rw [hiff]
  intro j hj hlast
  have hlt : j < piecePpa.length := by omega
  have hat : pieceAt piecePpa j = piecePpa[j] := by
    rw [pieceAt, List.getElem?_eq_getElem hlt, Option.getD_some]
  rw [hat] at hlast
  rcases hpieces _ (List.getElem_mem hlt) with heq | hp
  · omega
  · apply absurd hlast (ne_last_of_piece hdev hp)

/-- A translation page with one piece, behind which there are only holes. -/
def onePiece (p : ℕ) : List ℕ := p :: List.replicate (mapInTrans - 1) uint32Max

theorem onePiece_length (p : ℕ) :
  (onePiece p).length = mapInTrans
  := by
  rw [onePiece, List.length_cons, List.length_replicate]
  rfl

/-- A `PLR` that is never asked. -/
def noPredictor : Predictor Unit := ⟨fun _ => (), fun _ _ => 0, fun _ => 1⟩

/-- Globals at the start. -/
def noSegments : Globals := ⟨true, fun _ => none, fun _ => ∅, 0, 0, 0, 0, []⟩

/-- A page with the piece 8 is rebuilt. -/
theorem mapToOnelevel_rebuilt_one :
  ∃ s' lev, noSegments.mapToOnelevel noPredictor 0 none (onePiece 8) = .ok (s', lev) ∧
    Rebuilt noPredictor 0 (pieceAt (onePiece 8)) lev
  := by
  apply mapToOnelevel_rebuilt noPredictor .default noSegments 0
  · intro l h
    cases h
  · apply onePiece_length
  · decide
  · intro p hp
    rcases List.mem_cons.mp hp with rfl | hp
    · right
      decide
    · left
      apply (List.mem_replicate.mp hp).2

end Level

end LeaFtl

end AppL
