import AppL.Lsm.Flush
import AppL.Lsm.TableRoom

/-!
# The tables of the tree

The table of the target of a compaction has room for twice the blocks that the entries of the
sources would fill.  As long as the sources do not have more blocks than that, or none of them is
moved, no table of the tree gets full: the memtable has room for all sectors that it is made for,
the target of a flush has as many entries as the memtable, and a rebuild moves no block.
-/

namespace AppL

open Transition

variable {δ : Type} {g : Geometry}

/-! ### Counting entries -/

namespace Merging

variable {moves : ℕ → Ste → Prop} {range : ℕ} {held : List ℕ} {dev₀ : Dev δ} {m m' : Merging δ}

/-- Every step of a merge counts the entries that it adds to the target. -/
theorem Step.counted (hrange : range ≤ uint32Max) (hstep : m.Step g moves m')
    (hinv : m.Inv g range held dev₀) (h : m.res.nowEntryNum = m.res.lbas.length) :
  m'.res.nowEntryNum = m'.res.lbas.length
  := by
  cases hstep with
  | skip => apply h
  | push => apply h
  | @flush res sc sc' dev dev' hdev hres hsc =>
      obtain ⟨-, hgrow, -, -, hnow⟩ := hinv.flush hrange hdev hres sc'
      change res.nowEntryNum = res.lbas.length
      rw [hnow, hgrow.lbas, List.length_append, List.length_map, List.length_map, h]
  | @move as bs idx ste l sums res sc dev mf hsrcs hsorted hmeta hne hcopied hflag hapart hsums
      hres =>
      obtain ⟨-, -, hnow, hlbas⟩ := hinv.move hsrcs hsorted hmeta (moved_meta hmeta m.sc idx mf)
        hne hcopied rfl rfl hapart hsums hres ste.entries.length sc
      change res.nowEntryNum + ste.entries.length = (Run.lbas _).length
      rw [hlbas, hnow, List.length_append, List.length_map, h]

theorem Steps.counted (hrange : range ≤ uint32Max) (hsteps : m.Steps g moves m')
    (hinv : m.Inv g range held dev₀) (h : m.res.nowEntryNum = m.res.lbas.length) :
  m'.res.nowEntryNum = m'.res.lbas.length
  := by
  induction hsteps with
  | refl => apply h
  | tail hsteps hstep ih => apply hstep.counted hrange (Steps.inv hrange hsteps hinv) ih

end Merging

/-- A run of the tree: its blocks fit into its table, and it counts its entries. -/
structure Run.Fitted (r : Run δ) : Prop where
  fits : r.stBody.nowSteNum ≤ r.stBody.maxSteNum
  counted : r.nowEntryNum = r.entries.length

/-- The blocks of the runs fit into the table of the target that they are merged into, or none of
them may be moved. -/
def Run.TargetFits (g : Geometry) (rset : List (Run δ)) : Prop :=
  (rset.map (·.stBody.nowSteNum)).sum
    ≤ 2 * Run.blockNum g (rset.map (·.nowEntryNum)).sum ∨
    ∀ i j, ¬ MayMove rset i j

theorem StArray.init_maxSteNum {n : ℕ} {mapType : MapType} :
  (StArray.init g n mapType).maxSteNum = 2 * Run.blockNum g n
  := Nat.mul_comm _ _

/-- The entries of a run fit into the blocks for them. -/
theorem Run.le_blockNum (n : ℕ) :
  n ≤ g.maxSectorInBlock * Run.blockNum g n
  := by
  have hpos := g.maxSectorInBlock_pos
  have hdiv := Nat.div_add_mod (n + g.maxSectorInBlock - 1) g.maxSectorInBlock
  have hmod := Nat.mod_lt (n + g.maxSectorInBlock - 1) hpos
  unfold blockNum
  omega

namespace Mergeable

variable {range : ℕ} {held : List ℕ} {rset : List (Run δ)} {src : Run δ} {idx n : ℕ}
  {sc : ShortcutMaster} {dev : Dev δ} {mapType : MapType} {force : Bool} {st : MergeState δ}

/-- The target of a merge counts its entries. -/
theorem runMerge_counted (h : Mergeable g range held rset idx sc dev)
    (hrange : range ≤ uint32Max)
    (hok : AppL.runMerge g rset (Run.factory g mapType n .runNormal idx) force sc dev = .ok st) :
  st.res.nowEntryNum = st.res.entries.length
  := by
  obtain ⟨m, hsteps, -, -, -, -, hdone, -⟩ := runMerge_steps h.inputs h.none h.once hok
  have hinv := Merging.Steps.inv hrange hsteps h.beginning_inv
  obtain ⟨-, hgrow, -, hpp, hnum⟩ := Run.insertDone_grows hinv.opened hinv.holds hdone
  have hcount := Merging.Steps.counted hrange hsteps h.beginning_inv rfl
  have hlbas : st.res.entries.map (·.lba) = m.res.lbas := by
    have hl := hgrow.lbas
    rw [List.map_nil, List.append_nil, Run.lbas, Run.buffered, hpp] at hl
    simpa using hl
  rw [hnum, hcount, ← hlbas, List.length_map]

/-- A merge whose sources have no more blocks than there are in the table of the target. -/
theorem runMerge_fits (h : Mergeable g range held rset idx sc dev) (hrange : range ≤ uint32Max)
    (hfits : (rset.map (·.stBody.nowSteNum)).sum ≤ 2 * Run.blockNum g n) :
  Meets Abort.NotFull (fun st => st.res.Fitted)
    (AppL.runMerge g rset (Run.factory g mapType n .runNormal idx) force sc dev)
  := by
  have hdiv : Merging.Divided g (mayMoves force (blocksOf rset)) (Merging.beginning g rset
      (Run.factory g mapType n .runNormal idx) sc dev).remaining (blockPortions g rset) :=
    h.inputs.divided
  have hroom := runMerge_room h.inputs h.none h.once hdiv fun hord =>
    budget_beginning hord rfl hdiv.sub (Nat.le_of_eq h.inputs.sum_size)
      (StArray.init_maxSteNum.symm ▸ hfits)
  apply (hroom.with_ok fun _ hok => h.runMerge_counted hrange hok).mono
  intro st hst
  use hst.1, hst.2

/-- All entries of the sources in one portion. -/
theorem exists_portion (hlen : (rset.map fun r => (r.mergeEntries g).length).sum ≤ n) :
  ∃ b : Portion (ℕ × Entry), b.size = n ∧ ∀ x, x ∈ b.body ↔ x ∈ (Merging.beginning g rset
    (Run.factory g mapType n .runNormal idx) sc dev).remaining
  := by
  classical
  obtain ⟨l, hl⟩ : ∃ l, l = rset.zipIdx.flatMap fun x => (x.1.mergeEntries g).map (x.2, ·) :=
    ⟨_, rfl⟩
  have hcard : l.length = (rset.map fun r => (r.mergeEntries g).length).sum := by
    rw [hl, List.length_flatMap]
    congr 1
    conv_rhs => rw [← List.zipIdx_map_fst 0 rset, List.map_map]
    apply List.map_congr_left
    intro x _
    apply List.length_map
  refine ⟨⟨n, l.toFinset, ?_⟩, rfl, ?_⟩
  · apply (List.toFinset_card_le _).trans
    rw [hcard]
    apply hlen
  · intro x
    rw [mem_remaining_beginning, List.mem_toFinset, hl, List.mem_flatMap]
    constructor
    · rintro ⟨⟨r, i⟩, hr, hx⟩
      obtain ⟨e, he, rfl⟩ := List.mem_map.mp hx
      use r, List.mem_zipIdx_iff_getElem?.mp hr, he
    · rintro ⟨r, hr, he⟩
      use (r, x.1), List.mem_zipIdx_iff_getElem?.mpr hr, List.mem_map_of_mem he

/-- A merge that moves no blocks. -/
theorem runMerge_fits_unmoved (h : Mergeable g range held rset idx sc dev)
    (hrange : range ≤ uint32Max) (hnone : ∀ i ste, ¬ mayMoves force (blocksOf rset) i ste)
    (hlen : (rset.map fun r => (r.mergeEntries g).length).sum ≤ n) :
  Meets Abort.NotFull (fun st => st.res.Fitted)
    (AppL.runMerge g rset (Run.factory g mapType n .runNormal idx) force sc dev)
  := by
  obtain ⟨b, hsize, hbody⟩ : ∃ b : Portion (ℕ × Entry), b.size = n ∧ ∀ x, x ∈ b.body ↔
      x ∈ (Merging.beginning g rset (Run.factory g mapType n .runNormal idx) sc dev).remaining :=
    exists_portion hlen
  have hdiv : Merging.Divided g (mayMoves force (blocksOf rset)) (Merging.beginning g rset
      (Run.factory g mapType n .runNormal idx) sc dev).remaining [b] := by
    refine ⟨?_, ?_, ?_, ?_, ?_⟩
    · intro x hx
      use b, List.mem_singleton_self b, (hbody x).mpr hx
    · intro b' hb'
      rw [List.mem_singleton.mp hb']
      intro x hx
      apply (hbody x).mp hx
    · intro i ste hmoves
      exact absurd hmoves (hnone i ste)
    · intro i ste hmoves
      exact absurd hmoves (hnone i ste)
    · intro i ste hmoves
      exact absurd hmoves (hnone i ste)
  have hroom := runMerge_room h.inputs h.none h.once hdiv fun hord =>
    budget_beginning (m := Run.blockNum g n) hord rfl hdiv.sub
      (by simpa [hsize] using Run.le_blockNum n)
      (StArray.init_maxSteNum.symm ▸ Nat.le_mul_of_pos_left _ Nat.two_pos)
  apply (hroom.with_ok fun _ hok => h.runMerge_counted hrange hok).mono
  intro st hst
  use hst.1, hst.2

end Mergeable

/-! ### The memtable -/

namespace Run

variable {r r' : Run δ} {dev dev' : Dev δ}

/-- A block is moved behind the blocks that are closed for it, where the table has an element for
it. -/
theorem paddingCurrentBlock_le (h : r.paddingCurrentBlock g dev = .ok (r', dev')) :
  r'.stBody.nowSteNum ≤ r'.stBody.maxSteNum
  := by
  simp only [paddingCurrentBlock, bind_eq_ok] at h
  obtain ⟨⟨r₁, dev₁⟩, -, ⟨res, sa⟩, hskip, h⟩ := h
  dsimp only at hskip h
  unfold StArray.forceSkipBlock at hskip
  split at hskip
  · cases hskip
  · rename_i hlt
    split at hskip
    · cases hskip
      rcases writeMeta_ok h with ⟨-, -, rfl⟩ | ⟨-, q, a, b, -, rfl⟩
      · change r₁.stBody.nowSteNum ≤ r₁.stBody.maxSteNum
        omega
      · change (r₁.stBody.stes ++ [_]).length ≤ r₁.stBody.maxSteNum
        rw [List.length_append, List.length_singleton]
        apply Nat.lt_of_not_le hlt
    · cases hskip
      cases h
      change r₁.stBody.nowSteNum ≤ r₁.stBody.maxSteNum
      omega

/-- A log whose table has room for all sectors that it is made for. -/
structure Spacious (g : Geometry) (r : Run δ) : Prop where
  fills : ∃ xs, r.Fills g xs
  le : r.nowEntryNum ≤ r.maxEntryNum
  room : r.maxEntryNum ≤ g.maxSectorInBlock * r.stBody.maxSteNum

theorem Fills.filled {xs : List ℕ} (h : r.Fills g xs) :
  r.filled g = r.nowEntryNum
  := by
  have hlen := congrArg List.length h.lbas
  rw [List.length_append, List.length_map, List.length_map, h.log.length_pairs, ← h.num,
    Nat.mul_comm] at hlen
  rw [Run.filled, tail, List.length_append, List.length_map, List.length_map, ← Nat.add_assoc]
  apply hlen

theorem Spacious.filled_le (h : r.Spacious g) :
  r.filled g ≤ g.maxSectorInBlock * r.stBody.maxSteNum
  := by
  obtain ⟨xs, hxs⟩ := h.fills
  rw [hxs.filled]
  apply h.le.trans h.room

theorem Spacious.fits (h : r.Spacious g) :
  r.stBody.nowSteNum ≤ r.stBody.maxSteNum
  := by
  have hclosed := closedNum_le (w := 0) (r := r) (g := g) h.filled_le
  unfold closedNum at hclosed
  omega

/-- A log that is not full has room for another sector. -/
theorem Spacious.not_tableFull (h : r.Spacious g) (hfull : r.isFull = false) :
  ¬ r.TableFull
  := by
  obtain ⟨xs, hxs⟩ := h.fills
  apply Run.not_tableFull (g := g) _ (Nat.le_refl _)
  rw [hxs.filled]
  apply Nat.lt_of_lt_of_le _ h.room
  simpa [isFull] using hfull

theorem Spacious.factory {mapType : MapType} {n idx : ℕ} :
  (Run.factory g mapType n .runLog idx : Run δ).Spacious g
  where
    fills := ⟨[], fills_factory⟩
    le := Nat.zero_le n
    room := by
      change n ≤ g.maxSectorInBlock * (StArray.init g (n + scPerDir) mapType).maxSteNum
      rw [StArray.init_maxSteNum, Nat.mul_left_comm]
      have := le_blockNum (g := g) (n + scPerDir)
      omega

/-- Writing to a log that is not full. -/
theorem Spacious.insert {held : List ℕ} {items : List (ℕ × δ)} {sc sc' : ShortcutMaster}
    {lba : ℕ} {d : δ} (h : r.Spacious g) (hlog : r.LogOpen g held dev items)
    (hlba : lba ≤ uint32Max) (hfull : r.isFull = false)
    (hok : r.insert g sc dev lba d = .ok (r', sc', dev')) :
  r'.Spacious g
  := by
  simp only [Run.insert, hlog.log.type, bind_eq_ok] at hok
  obtain ⟨-, -, hok⟩ := hok
  split at hok
  · rw [bind_eq_ok] at hok
    obtain ⟨⟨r₁, dev₁⟩, hsector, hret⟩ := hok
    cases hret
    obtain ⟨-, -, -, hshape, hnow, -⟩ := insertSector_log hlog hlba hsector
    obtain ⟨xs, hxs⟩ := h.fills
    refine ⟨⟨_, (hxs.insertSector hlba hsector).1⟩, ?_, ?_⟩
    · rw [hnow, hshape.maxEntryNum]
      apply Nat.succ_le_of_lt
      simpa [isFull] using hfull
    · rw [hshape.maxEntryNum, hshape.maxSteNum]
      apply h.room
  · cases hok
    apply h

end Run

/-! ### The steps of the tree -/

namespace Lsmtree

variable {lsm lsm' lsm₁ : Lsmtree δ} {p : Param}

/-- The runs that a compaction merges: those of a level that is full. -/
def compactionSources (lsm : Lsmtree δ) : LsmOp δ → List (Run δ)
  | .compact first second =>
      match lsm.phase with
      | .compacting diskIdx =>
          match lsm.disk[diskIdx]? with
          | some lev =>
              if lev.isFull then
                match compactionTarget lev.runs (diskIdx == lsm.param.totalLevelNum - 1) first
                  second with
                | .ok (srcs, _) => srcs
                | .error _ => []
              else
                []
          | none => []
      | _ => []
  | _ => []

/-- The blocks of the runs that a compaction merges fit into the table of its target, or none of
them may be moved. -/
def TargetsFit (g : Geometry) (lsm : Lsmtree δ) (op : LsmOp δ) : Prop :=
  Run.TargetFits g (lsm.compactionSources op)

/-- The blocks of all runs fit into their tables. -/
structure Fitted (g : Geometry) (lsm : Lsmtree δ) : Prop where
  runs : ∀ r ∈ lsm.runs, r.Fitted
  front : lsm.phase = .idle → lsm.memtable.Spacious g

/-- The runs of the tree count the entries that a merge takes from them. -/
theorem Fitted.sum_entries {srcs rest : List (Run δ)} (h : lsm.Fitted g) (hkept : lsm.Kept g p [])
    (hruns : lsm.runs.Perm (srcs ++ rest)) :
  (srcs.map fun r => (r.mergeEntries g).length).sum = (srcs.map (·.nowEntryNum)).sum
  := by
  congr 1
  apply List.map_congr_left
  intro r hr
  have hmem : r ∈ lsm.runs := hruns.mem_iff.mpr (List.mem_append.mpr (.inl hr))
  rw [Run.mergeEntries, (hkept.runs r hmem).type, (h.runs r hmem).counted]

theorem Fitted.fits (h : lsm.Fitted g) :
  ∀ r ∈ lsm.live, r.stBody.nowSteNum ≤ r.stBody.maxSteNum
  := by
  intro r hr
  rw [live_eq, List.mem_append, Lsmtree.front] at hr
  rcases hr with hr | hr
  · split at hr
    · rename_i hidle
      rw [List.mem_singleton.mp hr]
      apply (h.front hidle).fits
    · cases hr
  · apply (h.runs r hr).fits

theorem Fitted.merge {srcs rest : List (Run δ)} {st : MergeState δ} (h : lsm.Fitted g)
    (hruns : lsm.runs.Perm (srcs ++ rest)) (hres : st.res.Fitted)
    (hafter : AfterMerge lsm lsm₁ st rest) :
  lsm₁.Fitted g
  where
    runs := by
      intro r hr
      rcases List.mem_cons.mp (hafter.runs.mem_iff.mp hr) with rfl | hr
      · apply hres
      · apply h.runs r (hruns.mem_iff.mpr (List.mem_append.mpr (.inr hr)))
    front hidle := by
      rw [hafter.memtable]
      apply h.front (hafter.phase.mp hidle)

theorem Fitted.freeRun_meets {r : Run δ} (h : lsm.Fitted g) :
  Meets Abort.NotFull (Fitted g) (lsm.freeRun g r)
  := by
  apply Meets.bind (Q := fun _ => True)
  · apply Meets.bind (Q := fun _ => True)
    · apply meets_foldlM _ _ trivial
      intro ste _ dev _
      apply Run.invalidatePiecePpa_meets fun _ => Abort.noConfusion
    · intro _ _
      trivial
  · intro _ _
    use h.runs, h.front

theorem Fitted.freeRuns_meets {rs : List (Run δ)} (h : lsm.Fitted g) :
  Meets Abort.NotFull (Fitted g) (rs.foldlM (Lsmtree.freeRun g) lsm)
  := by
  apply meets_foldlM (Fitted g) _ h
  intro r _ lsm₁ h₁
  apply h₁.freeRun_meets

theorem Fitted.write_meets {lba : ℕ} {d : δ} (h : lsm.Fitted g) (hkept : lsm.Kept g p [])
    (hrange : p.range ≤ uint32Max) :
  Meets Abort.NotFull (Fitted g) (lsm.write g lba d)
  := by
  unfold Lsmtree.write
  apply (meets_require (notFull_of .wrongPhase rfl rfl)).bind
  rintro _ ⟨hidle, hfull⟩
  apply (meets_require (notFull_of .outOfBounds rfl rfl)).bind
  intro _ hlba
  rw [hkept.param] at hlba
  obtain ⟨-, items, hlog⟩ := hkept.log hidle
  have hspace := h.front hidle
  apply ((Run.insert_room (hspace.not_tableFull hfull)).with_ok fun _ h => h).bind
  rintro ⟨r, sc, dev⟩ ⟨-, hins⟩
  exact ⟨h.runs, fun _ => hspace.insert hlog (Nat.le_of_lt (Nat.lt_of_lt_of_le hlba hrange)) hfull
    hins⟩

theorem Fitted.flush_meets (h : lsm.Fitted g) (hkept : lsm.Kept g p [])
    (hrange : p.range ≤ uint32Max) (honce : FlushesOnce g lsm .flush) :
  Meets Abort.NotFull (Fitted g) (lsm.flush g)
  := by
  apply Lsmtree.flush_meets notFull_of
  · intro hidle
    have hspace := h.front hidle
    apply (Run.insertDone_room fun hbuf => ?_).mono fun _ _ => trivial
    apply Run.not_tableFull_of_tail _ hspace.filled_le (Nat.le_refl _)
    intro htail
    apply hbuf (List.map_eq_nil_iff.mp (List.append_eq_nil_iff.mp htail).2)
  · intro lev r dev idx sc hidle hlev hdone hadd
    obtain ⟨-, hable⟩ := hkept.insertDone hrange hidle honce hdone hadd
    obtain ⟨xs, hxs⟩ := (h.front hidle).fills
    obtain ⟨-, -, hnum, hblocks⟩ := hxs.insertDone hdone
    have hfits : ([r].map (·.stBody.nowSteNum)).sum ≤ 2 * Run.blockNum g r.nowEntryNum := by
      rw [List.map_singleton, List.sum_singleton, hblocks, hnum]
      apply Nat.le_mul_of_pos_left _ Nat.two_pos
    apply (hable.runMerge_fits hrange hfits).mono
    intro st hres lev' hins
    constructor
    · intro r' hr'
      rcases List.mem_cons.mp ((inserted_runs hlev hins).mem_iff.mp hr') with rfl | hr'
      · apply hres
      · apply h.runs r' hr'
    · intro hbusy
      cases hbusy

theorem Fitted.rebuild_meets {pos : ℕ} (h : lsm.Fitted g) (hkept : lsm.Kept g p [])
    (hrange : p.range ≤ uint32Max) :
  Meets Abort.NotFull (Fitted g) (lsm.rebuild g pos)
  := by
  apply Lsmtree.rebuild_meets notFull_of
  intro lev src idx level sc hlev hsrc hadd
  obtain ⟨rest, hruns, hset⟩ := runs_perm hlev hsrc
  have hnone : ∀ i ste, ¬ mayMoves true (blocksOf [src]) i ste := by
    rintro i ste ⟨hforce, -⟩
    cases hforce
  have hlen : ([src].map fun r => (r.mergeEntries g).length).sum ≤ src.nowEntryNum := by
    rw [h.sum_entries hkept hruns, List.map_singleton, List.sum_singleton]
  apply ((hkept.mergeable hruns hadd).runMerge_fits_unmoved hrange hnone hlen).mono
  intro st hres lev' hins
  apply Fitted.freeRuns_meets
  apply h.merge hruns hres
  refine ⟨rfl, rfl, Iff.rfl, rfl, rfl, rfl, ?_⟩
  have hruns' := (hset lev').append_right lsm.lost
  rw [insertRun_ok hins] at hruns'
  apply hruns'

theorem Fitted.compactLevel_meets {diskIdx first second : ℕ} {lev : Level δ} (h : lsm.Fitted g)
    (hkept : lsm.Kept g p []) (hrange : p.range ≤ uint32Max)
    (hphase : lsm.phase = .compacting diskIdx) (hlev : lsm.disk[diskIdx]? = some lev)
    (hfull : lev.isFull = true) (hfits : TargetsFit g lsm (.compact first second)) :
  Meets Abort.NotFull (Fitted g) (lsm.compactLevel g diskIdx first second lev)
  := by
  apply Lsmtree.compactLevel_meets notFull_of
  intro last desLev srcs rest idx level sc hlast hdes htarget hadd
  obtain ⟨others, hruns⟩ := sources_perm hlev htarget
  have hsrcs : lsm.compactionSources (.compact first second) = srcs := by
    simp only [compactionSources, hphase, hlev, hfull, if_true, ← hlast, htarget]
  rw [TargetsFit, hsrcs] at hfits
  have hmerge := hkept.mergeable hruns hadd
  have hroom : Meets Abort.NotFull (fun st => st.res.Fitted) (runMerge g srcs
      (Run.factory g (normalMapType lsm.param desLev.mapType) (srcs.map (·.nowEntryNum)).sum
        .runNormal idx) false sc lsm.dev) := by
    rcases hfits with hfits | hstay
    · apply hmerge.runMerge_fits hrange hfits
    · apply hmerge.runMerge_fits_unmoved hrange
      · rintro i ste ⟨-, j, hmov⟩
        apply hstay i j hmov.mayMove.2
      · apply Nat.le_of_eq (h.sum_entries hkept hruns)
  apply hroom.mono
  intro st hres desLev' hins
  obtain ⟨stay, hperm, hperm'⟩ := compacted_runs hlev hdes htarget (stay_perm srcs.length _) hins
  apply Fitted.freeRuns_meets
  apply h.merge hperm hres
  refine ⟨rfl, rfl, ?_, rfl, rfl, rfl, hperm'⟩
  rw [hphase]
  constructor
  · intro hidle
    exact absurd hidle (phase_ne_idle _ _)
  · intro hidle
    cases hidle

theorem Fitted.compact_meets {first second : ℕ} (h : lsm.Fitted g) (hkept : lsm.Kept g p [])
    (hrange : p.range ≤ uint32Max) (hfits : TargetsFit g lsm (.compact first second)) :
  Meets Abort.NotFull (Fitted g) (lsm.compact g first second)
  := by
  apply Lsmtree.compact_meets notFull_of
  · intro diskIdx lev hphase hlev hfull
    apply h.compactLevel_meets hkept hrange hphase hlev hfull hfits
  · intro _
    use h.runs
    intro hidle
    cases hidle

theorem Fitted.finish_meets (h : lsm.Fitted g) :
  Meets Abort.NotFull (Fitted g) (lsm.finish g)
  := by
  unfold Lsmtree.finish
  apply (meets_require (notFull_of .wrongPhase rfl rfl)).bind
  intro _ _
  apply h.freeRun_meets.bind
  intro lsm₁ h₁
  unfold populateLog
  apply Meets.bind (Q := fun x : Run δ × ShortcutMaster => x.1.Spacious g)
  · apply (addRun_meets notFull_of).bind
    intro _ _
    apply Run.Spacious.factory
  · intro _ hspace
    exact ⟨h₁.runs, fun _ => hspace⟩

/-- No step fills a table, when the blocks that it merges fit into the table of the target. -/
theorem Fitted.step_meets {op : LsmOp δ} (h : lsm.Fitted g) (hkept : lsm.Kept g p [])
    (hrange : p.range ≤ uint32Max) (honce : FlushesOnce g lsm op) (hfits : TargetsFit g lsm op) :
  Meets Abort.NotFull (fun lsm' => lsm'.Kept g p [] ∧ lsm'.Fitted g) (lsm.step g op)
  := by
  have hmeets : Meets Abort.NotFull (Fitted g) (lsm.step g op) := by
    cases op with
    | write lba d => apply h.write_meets hkept hrange
    | flush => apply h.flush_meets hkept hrange honce
    | compact first second => apply h.compact_meets hkept hrange hfits
    | force pos =>
        apply (meets_require (notFull_of .wrongPhase rfl rfl)).bind
        intro _ _
        apply h.rebuild_meets hkept hrange
    | finish => apply h.finish_meets
    | cleanLastLevel pos =>
        apply (meets_require (notFull_of .wrongPhase rfl rfl)).bind
        intro _ _
        apply h.rebuild_meets hkept hrange
  apply (hmeets.with_ok fun _ hok => hkept.step hrange honce hok).mono
  intro _ hx
  exact ⟨hx.2, hx.1⟩

theorem fitted_init {blank : δ} (h : init g p blank = .ok lsm) :
  lsm.Fitted g
  := by
  obtain ⟨hphase, -, hruns, -, -, mapType, idx, -, hmem⟩ := init_ok h
  refine ⟨?_, ?_⟩
  · rw [hruns]
    exact List.forall_mem_nil _
  · intro _
    rw [hmem]
    apply Run.Spacious.factory

/-! ### Every run -/

/-- In a run in which the blocks of the sources of every compaction fit into the table of its
target, or none of them may be moved, and no block that a flush moves as a whole has an lba twice,
no table gets full, however the run ends, and every run has at most as many blocks as there is
room for in its table.  A block is moved to an element of the arrays, which have one more. -/
theorem tables_fit {p : Param} {blank : δ} {lsm₀ : Lsmtree δ} {ops : List (LsmOp δ)}
    (hrange : p.range ≤ uint32Max) (hinit : init g p blank = .ok lsm₀)
    (hguard : Guarded (Lsmtree.step g)
      (fun lsm op => FlushesOnce g lsm op ∧ TargetsFit g lsm op) lsm₀ ops) :
  Meets (· ≠ .sortedTableFull)
      (fun lsm => ∀ r ∈ lsm.live, r.stBody.nowSteNum ≤ r.stBody.maxSteNum)
      (Transition.run (Lsmtree.step g) lsm₀ ops) ∧
    ∀ (r r' : Run δ) (dev dev' : Dev δ), r.paddingCurrentBlock g dev = .ok (r', dev') →
      r'.stBody.nowSteNum ≤ r'.stBody.maxSteNum
  := by
  constructor
  · have hmeets := meets_run (I := fun lsm : Lsmtree δ => lsm.Kept g p [] ∧ lsm.Fitted g)
      (fun _ _ h hguard => h.2.step_meets h.1 hrange hguard.1 hguard.2)
      ⟨kept_init hinit, fitted_init hinit⟩ hguard
    apply (hmeets.of_errors fun _ he => he).mono
    intro lsm h
    apply h.2.fits
  · intro r r' dev dev' h
    apply Run.paddingCurrentBlock_le h

theorem tables_fit_mergeTwo :
  ∃ lsm₀ lsm, init tinyGeometry tinyParam 0 = .ok lsm₀ ∧
    Transition.run (Lsmtree.step tinyGeometry) lsm₀ mergeTwo = .ok lsm ∧
    lsm.live.map (fun r => (r.stBody.nowSteNum, r.stBody.maxSteNum)) = [(0, 136), (6, 16)] ∧
    ∀ r ∈ lsm.live, r.stBody.nowSteNum ≤ r.stBody.maxSteNum
  := by
  have hview : (init tinyGeometry tinyParam 0).map (fun lsm₀ =>
      (decide (Guarded (Lsmtree.step tinyGeometry) (fun lsm op =>
          blocksOnce tinyGeometry lsm op = true ∧
            ((lsm.compactionSources op).map (·.stBody.nowSteNum)).sum ≤ 2 * Run.blockNum
              tinyGeometry ((lsm.compactionSources op).map (·.nowEntryNum)).sum) lsm₀ mergeTwo),
        (Transition.run (Lsmtree.step tinyGeometry) lsm₀ mergeTwo).map fun lsm =>
          lsm.live.map fun r => (r.stBody.nowSteNum, r.stBody.maxSteNum)))
      = .ok (true, .ok [(0, 136), (6, 16)]) := by
    decide +kernel
  obtain ⟨lsm₀, hinit, hview⟩ := map_eq_ok hview
  obtain ⟨hguard, hview⟩ := Prod.mk.inj hview
  obtain ⟨lsm, hrun, htables⟩ := map_eq_ok hview
  have hrange : tinyParam.range ≤ uint32Max := by decide
  have hmeets := (tables_fit hrange hinit ((of_decide_eq_true hguard).imp fun _ _ h =>
    ⟨blocksOnce.flushesOnce h.1, .inl h.2⟩)).1
  rw [hrun] at hmeets
  use lsm₀, lsm, hinit, hrun, htables, hmeets

/-- Blocks of eight sectors. -/
def hotGeometry : Geometry := ⟨2, 1, 60, Nat.two_pos, Nat.one_pos⟩

/-- Memtables of one block, and three runs in a level. -/
def hotParam : Param := ⟨false, 8, 3, 2, 6, 3, 1, 1, 60⟩

/-- Three memtables of two lbas each are flushed, and their runs are merged. -/
def hotPairs : List (LsmOp ℕ) :=
  writes [1, 2, 1, 2, 1, 2, 1, 2] ++ [.flush, .compact 0 1, .finish] ++
    writes [11, 12, 11, 12, 11, 12, 11, 12] ++ [.flush, .compact 0 1, .finish] ++
    writes [21, 22, 21, 22, 21, 22, 21, 22] ++ [.flush, .compact 0 1]

/-- No sorted block of a memtable that is flushed has an lba twice. -/
def sortedOnce (g : Geometry) (lsm : Lsmtree δ) : LsmOp δ → Bool
  | .flush =>
      match lsm.memtable.insertDone g lsm.dev with
      | .ok (r, _) => r.stBody.stes.all fun ste => ste.sorted = true → ste.lbas.Nodup
      | .error _ => true
  | _ => true

theorem sortedOnce.flushesOnce {op : LsmOp δ} (h : sortedOnce g lsm op = true) :
  FlushesOnce g lsm op
  := by
  cases op with
  | flush =>
      rintro r dev hdone i j r' ste ⟨r₁, ste₁, hr₁, hste₁, hsorted, -⟩ hr hste
      simp only [sortedOnce, hdone, List.all_eq_true, decide_eq_true_eq] at h
      cases hr.symm.trans hr₁
      cases hste.symm.trans hste₁
      obtain rfl := List.mem_singleton.mp (List.mem_of_getElem? hr)
      apply h ste (List.mem_of_getElem? hste) hsorted
  | _ => trivial

/-- Three runs with one block and two entries each are merged into a table for two blocks. -/
theorem not_tables_fit_hotPairs :
  ∃ lsm₀, init hotGeometry hotParam 0 = .ok lsm₀ ∧
    Guarded (Lsmtree.step hotGeometry) (FlushesOnce hotGeometry) lsm₀ hotPairs ∧
    Transition.run (Lsmtree.step hotGeometry) lsm₀ hotPairs = .error .sortedTableFull
  := by
  have hview : (init hotGeometry hotParam 0).map (fun lsm₀ =>
      (decide (Guarded (Lsmtree.step hotGeometry)
          (fun lsm op => sortedOnce hotGeometry lsm op = true) lsm₀ hotPairs),
        (Transition.run (Lsmtree.step hotGeometry) lsm₀ hotPairs).map fun _ => ()))
      = .ok (true, .error .sortedTableFull) := by
    decide +kernel
  obtain ⟨lsm₀, hinit, hview⟩ := map_eq_ok hview
  obtain ⟨honce, hview⟩ := Prod.mk.inj hview
  use lsm₀, hinit, (of_decide_eq_true honce).imp fun _ _ => sortedOnce.flushesOnce
  apply map_eq_error hview

end Lsmtree

end AppL
