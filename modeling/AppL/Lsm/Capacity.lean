import AppL.Lsm.Liveness

/-!
# Room for runs

A compaction empties a level as soon as it is full, so every level has room for the run that it is
given.  The indices of the shortcut are those of the runs and the free ones, and there are enough
of them: a level holds `max_run_num` runs, and two more indices are for the memtable and the target
of a merge.

The code keeps an index in a byte, in which `NOT_ASSIGNED_SC` is no index, and the sources of a merge
that have been read in the bits of a word.  The model has numbers and lists in their place, which
agree with them when there are at most 255 indices and at most 31 sources: an index that the shortcut
gives is below `total_run_num + spare_run_num`, and a merge has two sources or as many as a level has
runs.  For larger parameters the results are about the model alone.
-/

namespace AppL

open Transition

variable {δ : Type} {g : Geometry}

/-- `max_run_num` of a level: the last one takes the spare runs, without one for the memtable and
one for the target of a compaction. -/
def Param.maxRunNum (p : Param) (i : ℕ) : ℕ :=
  if i = p.totalLevelNum - 1 then p.sizeFactor + (p.spareRunNum - 2) else p.sizeFactor

/-- What `lsmtree_calculate_parameter` gives, and that the last level has not four runs: it leaves
two indices for other runs than those of the levels, but nothing in it keeps `max_run_num` of the
last level from being four, and then `__compaction_another_level` drops two runs of it. -/
structure Param.Sized (p : Param) : Prop where
  total : p.totalRunNum = p.totalLevelNum * p.sizeFactor
  factor : 0 < p.sizeFactor
  spare : 2 ≤ p.spareRunNum
  last : p.maxRunNum (p.totalLevelNum - 1) ≠ 4

theorem Param.maxRunNum_pos {p : Param} (h : 0 < p.sizeFactor) (i : ℕ) :
  0 < p.maxRunNum i
  := by
  rw [maxRunNum]
  split
  · apply Nat.add_pos_left h _
  · apply h

/-- The room of all levels together. -/
theorem Param.sum_maxRunNum (p : Param) :
  ((List.range p.totalLevelNum).map p.maxRunNum).sum
    ≤ p.totalLevelNum * p.sizeFactor + (p.spareRunNum - 2)
  := by
  cases hn : p.totalLevelNum with
  | zero => apply Nat.zero_le _
  | succ n =>
      have hinit : (List.range n).map p.maxRunNum = (List.range n).map fun _ => p.sizeFactor := by
        apply List.map_congr_left
        intro i hi
        rw [maxRunNum, if_neg]
        have := List.mem_range.mp hi
        omega
      have hlast : p.maxRunNum n = p.sizeFactor + (p.spareRunNum - 2) := by
        rw [maxRunNum, if_pos]
        omega
      rw [List.range_succ, List.map_append, List.sum_append, hinit, List.map_const',
        List.sum_replicate_nat, List.length_range, List.map_singleton, List.sum_singleton, hlast,
        Nat.succ_mul, Nat.add_assoc]

namespace Lsmtree

variable {lsm lsm' : Lsmtree δ} {p : Param}

/-! ### Levels -/

/-- Every level has the room for its runs, and for one more unless the compaction is at it. -/
structure Fits (p : Param) (lsm : Lsmtree δ) : Prop where
  param : lsm.param = p
  sizes : lsm.disk.map (·.maxRunNum) = (List.range p.totalLevelNum).map p.maxRunNum
  le : ∀ (i : ℕ) (lev : Level δ), lsm.disk[i]? = some lev → lev.runs.length ≤ lev.maxRunNum
  room : ∀ (i : ℕ) (lev : Level δ), lsm.disk[i]? = some lev → lsm.phase ≠ .compacting i →
    lev.runs.length < lev.maxRunNum
  lost : lsm.lost = []

theorem Fits.maxRunNum (h : lsm.Fits p) {i : ℕ} {lev : Level δ} (hlev : lsm.disk[i]? = some lev) :
  lev.maxRunNum = p.maxRunNum i ∧ i < p.totalLevelNum
  := by
  have hget : (lsm.disk.map (·.maxRunNum))[i]? = some lev.maxRunNum := by
    rw [List.getElem?_map, hlev]
    rfl
  rw [h.sizes, List.getElem?_map] at hget
  obtain ⟨j, hj, hmax⟩ := Option.map_eq_some_iff.mp hget
  obtain ⟨hlt, hrange⟩ := List.getElem?_eq_some_iff.mp hj
  rw [List.length_range] at hlt
  rw [List.getElem_range] at hrange
  use by rw [← hmax, hrange], hlt

theorem insertRun_room {lev lev' : Level δ} {r : Run δ} (h : lev.insertRun r = .ok lev') :
  lev'.maxRunNum = lev.maxRunNum ∧ lev'.runs.length = lev.runs.length + 1 ∧
    lev.runs.length < lev.maxRunNum
  := by
  simp only [Level.insertRun, bind_eq_ok, require_eq_ok] at h
  obtain ⟨-, hfull, hret⟩ := h
  cases hret
  refine ⟨rfl, rfl, ?_⟩
  simpa [Level.isFull] using hfull

/-- A level is replaced by one of the same size. -/
theorem sizes_set {disk : List (Level δ)} {i : ℕ} {lev lev' : Level δ} (hlev : disk[i]? = some lev)
    (hmax : lev'.maxRunNum = lev.maxRunNum) :
  (disk.set i lev').map (·.maxRunNum) = disk.map (·.maxRunNum)
  := by
  obtain ⟨hi, rfl⟩ := List.getElem?_eq_some_iff.mp hlev
  apply List.ext_getElem?
  intro j
  rw [List.map_set, hmax, List.getElem?_set, List.getElem?_map]
  by_cases hj : i = j
  · subst hj
    simp [hi]
  · simp [hj]

/-- The numbers of runs that a compaction merges and that stay. -/
theorem compactionTarget_length {rs srcs rest : List (Run δ)} {last : Bool} {first second : ℕ}
    (h : compactionTarget rs last first second = .ok (srcs, rest)) :
  (srcs = rs ∧ rest = [] ∧ (last = false ∨ rs.length = 2)) ∨
    (last = true ∧ srcs.length = 2 ∧ rs.length = rest.length + 2)
  := by
  have hlen := (compactionTarget_ok h).length_eq
  unfold compactionTarget at h
  split at h
  · rename_i hall
    cases h
    left
    exact ⟨rfl, rfl, hall⟩
  · rename_i hall
    rw [not_or, Bool.not_eq_false] at hall
    split at h
    · split at h
      · cases h
        rw [List.length_append] at hlen
        right
        exact ⟨hall.1, rfl, by rw [hlen]; exact Nat.add_comm _ _⟩
      · cases h
    · cases h

/-- A level gets a run when it has room for it, and all others stay as they are. -/
theorem Fits.set (h : lsm.Fits p) {i : ℕ} {lev lev' : Level δ} {phase : Phase}
    (hlev : lsm.disk[i]? = some lev) (hmax : lev'.maxRunNum = lev.maxRunNum)
    (hle : lev'.runs.length ≤ lev'.maxRunNum)
    (hroom : phase ≠ .compacting i → lev'.runs.length < lev'.maxRunNum)
    (hphase : ∀ j, j ≠ i → phase ≠ .compacting j → lsm.phase ≠ .compacting j)
    {sc : ShortcutMaster} {dev : Dev δ} {memtable : Run δ} :
  Fits p { lsm with
    sc := sc
    dev := dev
    memtable := memtable
    disk := lsm.disk.set i lev'
    phase := phase }
  := by
  have hi := (List.getElem?_eq_some_iff.mp hlev).1
  refine ⟨h.param, (sizes_set hlev hmax).trans h.sizes, ?_, ?_, h.lost⟩
  · intro j lev₁ hj
    by_cases heq : j = i
    · subst heq
      rw [List.getElem?_set_self hi] at hj
      cases hj
      apply hle
    · rw [List.getElem?_set_ne (Ne.symm heq)] at hj
      apply h.le j lev₁ hj
  · intro j lev₁ hj hne
    by_cases heq : j = i
    · subst heq
      rw [List.getElem?_set_self hi] at hj
      cases hj
      apply hroom hne
    · rw [List.getElem?_set_ne (Ne.symm heq)] at hj
      apply h.room j lev₁ hj (hphase j heq hne)

theorem Fits.write {lba : ℕ} {d : δ} (h : lsm.Fits p) (hok : lsm.write g lba d = .ok lsm') :
  lsm'.Fits p
  := by
  simp only [Lsmtree.write, bind_eq_ok] at hok
  obtain ⟨-, -, -, -, ⟨r, sc, dev⟩, -, hret⟩ := hok
  cases hret
  use h.param, h.sizes, h.le, h.room, h.lost

theorem Fits.flush (h : lsm.Fits p) (hok : lsm.flush g = .ok lsm') :
  lsm'.Fits p
  := by
  simp only [Lsmtree.flush, bind_eq_ok, require_eq_ok, orThrow_eq_ok] at hok
  obtain ⟨-, ⟨hidle, -⟩, lev, hlev, ⟨r, dev⟩, -, ⟨target, sc⟩, -, st, -, lev', hins, hret⟩ := hok
  cases hret
  obtain ⟨hmax, hlen, hroom⟩ := insertRun_room hins
  refine h.set hlev hmax (by omega) (fun hne => absurd rfl hne) ?_
  intro j _ _
  rw [hidle]
  apply Phase.noConfusion

theorem Fits.freeRuns {rs : List (Run δ)} :
  ∀ {lsm : Lsmtree δ}, lsm.Fits p → rs.foldlM (Lsmtree.freeRun g) lsm = .ok lsm' → lsm'.Fits p
  := by
  induction rs with
  | nil =>
      intro lsm h hok
      cases hok
      apply h
  | cons r rs ih =>
      intro lsm h hok
      rw [List.foldlM_cons, bind_eq_ok] at hok
      obtain ⟨lsm₁, hfst, hrest⟩ := hok
      obtain ⟨sc, dev, -, rfl⟩ := freeRun_ok hfst
      refine ih ?_ hrest
      use h.param, h.sizes, h.le, h.room, h.lost

theorem Fits.rebuild {pos : ℕ} (h : lsm.Fits p) (hphase : ∀ i, lsm.phase ≠ .compacting i)
    (hok : lsm.rebuild g pos = .ok lsm') :
  lsm'.Fits p
  := by
  simp only [Lsmtree.rebuild, bind_eq_ok, orThrow_eq_ok] at hok
  obtain ⟨lev, hlev, src, hsrc, ⟨target, sc⟩, -, st, -, lev', hins, hfree⟩ := hok
  obtain ⟨hmax, hlen, -⟩ := insertRun_room hins
  have hpos := (List.getElem?_eq_some_iff.mp hsrc).1
  have hroom := h.room _ lev hlev (hphase _)
  dsimp only at hmax hlen
  rw [List.length_eraseIdx_of_lt hpos] at hlen
  refine Fits.freeRuns (h.set hlev hmax (by omega) (fun _ => by omega) ?_) hfree
  intro j _ hne
  apply hne

/-- A compaction empties a level and gives its run to the next one. -/
theorem Fits.compactNext {diskIdx : ℕ} {lev desLev desLev' : Level δ} {r : Run δ}
    {sc : ShortcutMaster} {dev : Dev δ} (h : lsm.Fits p) (hp : p.Sized)
    (hphase : lsm.phase = .compacting diskIdx) (hlev : lsm.disk[diskIdx]? = some lev)
    (hdes : lsm.disk[diskIdx + 1]? = some desLev) (hins : desLev.insertRun r = .ok desLev') :
  Fits p { lsm with
    sc := sc
    dev := dev
    disk := (lsm.disk.set diskIdx { lev with runs := [] }).set (diskIdx + 1) desLev'
    phase := .compacting (diskIdx + 1) }
  := by
  obtain ⟨hmax, hlen, hroom⟩ := insertRun_room hins
  have hempty : Fits p { lsm with
      disk := lsm.disk.set diskIdx { lev with runs := [] }
      phase := .forcing } := by
    refine h.set hlev ?_ ?_ (fun _ => ?_) ?_
    · rfl
    · apply Nat.zero_le _
    · rw [(h.maxRunNum hlev).1]
      apply p.maxRunNum_pos hp.factor diskIdx
    · intro j hj _
      rw [hphase]
      exact fun heq => hj (Phase.compacting.inj heq).symm
  have hdes' : (lsm.disk.set diskIdx { lev with runs := [] })[diskIdx + 1]? = some desLev := by
    rw [List.getElem?_set_ne (Nat.ne_of_lt (Nat.lt_succ_self _)), hdes]
  apply hempty.set hdes' hmax (by omega) (fun hne => absurd rfl hne) fun _ _ _ => Phase.noConfusion

/-- A compaction merges two runs of the last level, and drops no other. -/
theorem Fits.compactLast {diskIdx first second : ℕ} {lev lev' : Level δ} {r : Run δ}
    {srcs rest : List (Run δ)} {sc : ShortcutMaster} {dev : Dev δ} (h : lsm.Fits p)
    (hp : p.Sized) (hphase : lsm.phase = .compacting diskIdx)
    (hlev : lsm.disk[diskIdx]? = some lev) (hlast : diskIdx = p.totalLevelNum - 1)
    (hfull : lev.runs.length = lev.maxRunNum)
    (htarget : compactionTarget lev.runs true first second = .ok (srcs, rest))
    (hins : Level.insertRun { lev with runs := if srcs.length = rest.length then [] else rest } r
      = .ok lev') :
  (if srcs.length = rest.length then rest else []) = [] ∧
    Fits p { lsm with
      sc := sc
      dev := dev
      disk := lsm.disk.set diskIdx lev'
      phase := .forcing }
  := by
  obtain ⟨hmax, hlen, hroom⟩ := insertRun_room hins
  have hne : lev.runs.length ≠ 4 := by
    rw [hfull, (h.maxRunNum hlev).1, hlast]
    apply hp.last
  have hstay : srcs.length ≠ rest.length ∧ rest.length + 2 = lev.runs.length := by
    rcases compactionTarget_length htarget with ⟨rfl, rfl, hor⟩ | ⟨-, hsrcs, hrest⟩
    · have htwo := hor.resolve_left Bool.noConfusion
      simp [htwo]
    · omega
  dsimp only at hmax hlen hroom
  rw [if_neg hstay.1] at hlen hroom ⊢
  refine ⟨rfl, h.set hlev hmax (by omega) (fun _ => by omega) ?_⟩
  intro j hj _
  rw [hphase]
  exact fun heq => hj (Phase.compacting.inj heq).symm

theorem Fits.compactLevel {diskIdx first second : ℕ} {lev : Level δ} (h : lsm.Fits p)
    (hp : p.Sized) (hphase : lsm.phase = .compacting diskIdx)
    (hlev : lsm.disk[diskIdx]? = some lev) (hfull : lev.isFull = true)
    (hok : lsm.compactLevel g diskIdx first second lev = .ok lsm') :
  lsm'.Fits p
  := by
  simp only [Lsmtree.compactLevel, bind_eq_ok, orThrow_eq_ok] at hok
  obtain ⟨desLev, hdes, ⟨srcs, rest⟩, htarget, ⟨target, sc⟩, -, st, -, desLev', hins, hfree⟩ := hok
  have hlen : lev.runs.length = lev.maxRunNum :=
    (h.le _ _ hlev).antisymm (by simpa [Level.isFull] using hfull)
  refine Fits.freeRuns ?_ hfree
  cases hlast : diskIdx == lsm.param.totalLevelNum - 1 with
  | false =>
      simp only [hlast, Bool.false_eq_true, if_false] at hdes hins htarget ⊢
      obtain rfl : rest = [] := by
        rcases compactionTarget_length htarget with ⟨-, hrest, -⟩ | ⟨hl, -⟩
        · apply hrest
        · cases hl
      simp only [ite_self, List.nil_append]
      apply h.compactNext hp hphase hlev hdes hins
  | true =>
      simp only [hlast, if_true, List.set_set] at hdes hins htarget ⊢
      rw [beq_iff_eq, h.param] at hlast
      obtain ⟨hlost, hfits⟩ := h.compactLast hp hphase hlev hlast hlen htarget hins
      rw [hlost]
      apply hfits

theorem Fits.compact {first second : ℕ} (h : lsm.Fits p) (hp : p.Sized)
    (hok : lsm.compact g first second = .ok lsm') :
  lsm'.Fits p
  := by
  unfold Lsmtree.compact at hok
  split at hok
  · rename_i diskIdx hphase
    rw [bind_eq_ok] at hok
    obtain ⟨lev, hlev, hok⟩ := hok
    rw [orThrow_eq_ok] at hlev
    split at hok
    · rename_i hfull
      apply h.compactLevel hp hphase hlev hfull hok
    · rename_i hfull
      cases hok
      refine ⟨h.param, h.sizes, h.le, ?_, h.lost⟩
      intro i lev₁ hi _
      by_cases heq : i = diskIdx
      · subst heq
        obtain rfl := Option.some.inj (hi.symm.trans hlev)
        simpa [Level.isFull] using hfull
      · refine h.room i lev₁ hi ?_
        rw [hphase]
        exact fun hsame => heq (Phase.compacting.inj hsame).symm
  · cases hok

theorem Fits.finish (h : lsm.Fits p) (hok : lsm.finish g = .ok lsm') :
  lsm'.Fits p
  := by
  simp only [Lsmtree.finish, bind_eq_ok, require_eq_ok] at hok
  obtain ⟨-, hphase, lsm₁, hfree, ⟨memtable, sc⟩, -, hret⟩ := hok
  cases hret
  obtain ⟨sc₁, dev₁, -, rfl⟩ := freeRun_ok hfree
  refine ⟨h.param, h.sizes, h.le, ?_, h.lost⟩
  intro i lev hlev _
  refine h.room i lev hlev ?_
  rw [hphase]
  apply Phase.noConfusion

/-- Every step leaves room in the levels. -/
theorem Fits.step {op : LsmOp δ} (h : lsm.Fits p) (hp : p.Sized)
    (hok : lsm.step g op = .ok lsm') :
  lsm'.Fits p
  := by
  cases op with
  | write lba d => apply h.write hok
  | flush => apply h.flush hok
  | compact first second => apply h.compact hp hok
  | force pos =>
      simp only [Lsmtree.step, Lsmtree.force, bind_eq_ok, require_eq_ok] at hok
      obtain ⟨-, hphase, hok⟩ := hok
      apply h.rebuild (fun i => by rw [hphase]; exact Phase.noConfusion) hok
  | finish => apply h.finish hok
  | cleanLastLevel pos =>
      simp only [Lsmtree.step, Lsmtree.cleanLastLevel, bind_eq_ok, require_eq_ok] at hok
      obtain ⟨-, hphase, hok⟩ := hok
      apply h.rebuild (fun i => by rw [hphase]; exact Phase.noConfusion) hok

theorem fits_init {blank : δ} (hp : p.Sized) (h : init g p blank = .ok lsm) :
  lsm.Fits p
  := by
  simp only [init, bind_eq_ok] at h
  obtain ⟨⟨memtable, sc⟩, -, hret⟩ := h
  cases hret
  have hempty : ∀ (i : ℕ) (lev : Level δ), ((List.range p.totalLevelNum).map fun i =>
      ({ maxRunNum := if i = p.totalLevelNum - 1 then p.sizeFactor + (p.spareRunNum - 2)
          else p.sizeFactor
         mapType := levelMapType p i
         runs := [] } : Level δ))[i]? = some lev →
      lev.runs.length < lev.maxRunNum := by
    intro i lev hlev
    obtain ⟨j, -, rfl⟩ := List.mem_map.mp (List.mem_of_getElem? hlev)
    apply p.maxRunNum_pos hp.factor j
  refine ⟨rfl, ?_, fun i lev hlev => (hempty i lev hlev).le, fun i lev hlev _ => hempty i lev hlev,
    rfl⟩
  rw [List.map_map]
  rfl

/-- The run lemma. -/
theorem Fits.run {ops : List (LsmOp δ)} (h : lsm.Fits p) (hp : p.Sized)
    (hrun : Transition.run (Lsmtree.step g) lsm ops = .ok lsm') :
  lsm'.Fits p
  := by
  refine run_preserves (fun l => l.Fits p) ?_ h (guarded_true lsm ops) hrun
  intro _ op _ hs _ hstep
  apply hs.step hp hstep

/-- All levels together have the room of their runs. -/
theorem Fits.length_le (h : lsm.Fits p) :
  lsm.runs.length ≤ p.totalLevelNum * p.sizeFactor + (p.spareRunNum - 2)
  := by
  rw [runs, h.lost, List.append_nil, List.length_flatMap]
  refine Nat.le_trans ?_ p.sum_maxRunNum
  rw [← h.sizes]
  apply List.sum_le_sum
  intro lev hlev
  obtain ⟨i, hi⟩ := List.mem_iff_getElem?.mp hlev
  apply h.le i lev hi

/-! ### Indices -/

/-- The indices of all runs, with those that wait to be freed, and the free ones. -/
def pool (waiting : List (Run δ)) (lsm : Lsmtree δ) : List ℕ :=
  (waiting ++ lsm.memtable :: lsm.runs).map (·.info) ++ lsm.sc.freeQ

theorem pool_freeRun {r : Run δ} {waiting : List (Run δ)} (hok : lsm.freeRun g r = .ok lsm') :
  (lsm'.pool waiting).Perm (lsm.pool (r :: waiting))
  := by
  obtain ⟨sc, dev, hfree, rfl⟩ := freeRun_ok hok
  simp only [Run.free, bind_eq_ok] at hfree
  obtain ⟨dev₁, -, hret⟩ := hfree
  cases hret
  change List.Perm (_ ++ (lsm.sc.freeQ ++ [r.info])) (r.info :: (_ ++ lsm.sc.freeQ))
  rw [← List.append_assoc]
  apply List.perm_append_singleton _ _

theorem pool_freeRuns {rs : List (Run δ)} :
  ∀ {lsm : Lsmtree δ}, rs.foldlM (Lsmtree.freeRun g) lsm = .ok lsm' →
    (lsm'.pool []).Perm (lsm.pool rs)
  := by
  induction rs with
  | nil =>
      intro lsm hok
      cases hok
      exact .refl _
  | cons r rs ih =>
      intro lsm hok
      rw [List.foldlM_cons, bind_eq_ok] at hok
      obtain ⟨lsm₁, hfst, hrest⟩ := hok
      apply (ih hrest).trans (pool_freeRun hfst)

/-- The target of a merge takes an index, and the sources keep theirs. -/
theorem Kept.pool_merge {lsm₁ : Lsmtree δ} {srcs rest : List (Run δ)} {level idx n : ℕ}
    {mapType : MapType} {force : Bool} {sc : ShortcutMaster} {st : MergeState δ}
    (h : lsm.Kept g p []) (hrange : p.range ≤ uint32Max)
    (hruns : lsm.runs.Perm (srcs ++ rest)) (hadd : lsm.sc.addRun level = .ok (idx, sc))
    (hok : runMerge g srcs (Run.factory g mapType n .runNormal idx) force sc lsm.dev = .ok st)
    (hafter : AfterMerge lsm lsm₁ st rest) :
  (lsm₁.pool (st.mms.map (·.r))).Perm (lsm.pool [])
  := by
  obtain ⟨hfree, -⟩ := Books.addRun_ok hadd
  have hmerged := (h.mergeable hruns hadd).runMerge hrange hok
  have hsrcs : (st.mms.map (·.r)).map (·.info) = srcs.map (·.info) := by
    rw [List.map_map]
    apply hmerged.infos
  have hnew := hafter.runs.map (·.info)
  have hold := hruns.map (·.info)
  rw [List.map_cons, hmerged.info] at hnew
  rw [List.map_append] at hold
  simp only [pool, List.map_append, List.map_cons, hsrcs, hafter.memtable, hafter.sc,
    hmerged.freeQ, hfree, List.nil_append]
  rw [List.perm_iff_count] at hnew hold ⊢
  intro i
  have hn := hnew i
  have ho := hold i
  simp only [List.count_append, List.count_cons] at hn ho ⊢
  omega

/-- A write keeps the index of the memtable. -/
theorem insert_index {r r' : Run δ} {held : List ℕ} {items : List (ℕ × δ)} {dev dev' : Dev δ}
    {sc sc' : ShortcutMaster} {lba : ℕ} {d : δ} (hlog : r.LogOpen g held dev items)
    (hlba : lba ≤ uint32Max) (hok : r.insert g sc dev lba d = .ok (r', sc', dev')) :
  r'.info = r.info ∧ sc'.freeQ = sc.freeQ
  := by
  simp only [Run.insert, hlog.log.type, bind_eq_ok] at hok
  obtain ⟨-, -, hok⟩ := hok
  rcases sc.validityCheckAndLink_cases r.info r.info lba with
    ⟨hfalse, hsc, -⟩ | ⟨htrue, htakes, -⟩
  · rw [hfalse, hsc] at hok
    cases hok
    exact ⟨rfl, rfl⟩
  · simp only [htrue, if_true, bind_eq_ok] at hok
    obtain ⟨⟨r₁, dev₁⟩, hsector, hret⟩ := hok
    cases hret
    obtain ⟨-, -, -, hshape, -⟩ := Run.insertSector_log hlog hlba hsector
    use hshape.info, htakes.freeQ

theorem Kept.pool_write {lba : ℕ} {d : δ} (h : lsm.Kept g p []) (hrange : p.range ≤ uint32Max)
    (hok : lsm.write g lba d = .ok lsm') :
  (lsm'.pool []).Perm (lsm.pool [])
  := by
  simp only [Lsmtree.write, bind_eq_ok, require_eq_ok] at hok
  obtain ⟨-, ⟨hidle, -⟩, -, hlba, ⟨r, sc, dev⟩, hins, hret⟩ := hok
  cases hret
  obtain ⟨-, items, hlog⟩ := h.log hidle
  rw [h.param] at hlba
  obtain ⟨hinfo, hfree⟩ :=
    insert_index hlog (Nat.le_of_lt (Nat.lt_of_lt_of_le hlba hrange)) hins
  change List.Perm ((r.info :: lsm.runs.map (·.info)) ++ sc.freeQ) _
  rw [hinfo, hfree]
  exact .refl _

theorem Kept.pool_flush (h : lsm.Kept g p []) (hrange : p.range ≤ uint32Max)
    (honce : FlushesOnce g lsm .flush) (hok : lsm.flush g = .ok lsm') :
  (lsm'.pool []).Perm (lsm.pool [])
  := by
  simp only [Lsmtree.flush, bind_eq_ok, require_eq_ok, orThrow_eq_ok] at hok
  obtain ⟨-, ⟨hidle, -⟩, lev, hlev, ⟨r, dev⟩, hdone, ⟨target, sc⟩, hpop, st, hmerge, lev', hins,
    hret⟩ := hok
  cases hret
  obtain ⟨idx, hadd, rfl⟩ := populateNormal_ok hpop
  obtain ⟨-, items, hlog⟩ := h.log hidle
  obtain ⟨-, -, hshape, -⟩ := Run.insertDone_log hlog hdone
  obtain ⟨hfree, -⟩ := Books.addRun_ok hadd
  have hmerged := (h.insertDone hrange hidle honce hdone hadd).2.runMerge hrange hmerge
  obtain ⟨mm, hmms⟩ : ∃ mm, st.mms = [mm] := by
    apply List.length_eq_one_iff.mp
    have hlen := congrArg List.length hmerged.infos
    simpa using hlen
  have hinfo : mm.r.info = lsm.memtable.info := by
    have hinfos := hmerged.infos
    rw [hmms] at hinfos
    apply (List.singleton_inj.mp hinfos).trans hshape.info
  have hruns := (inserted_runs hlev hins).map (·.info)
  rw [List.map_cons, hmerged.info] at hruns
  change List.Perm (((st.mms.map (·.r)).headD r :: ((lsm.disk.set 0 lev').flatMap (·.runs) ++
    lsm.lost)).map (·.info) ++ st.sc.freeQ) _
  simp only [pool, hmms, List.map_cons, List.map_nil, List.headD_cons, List.nil_append, hinfo,
    hmerged.freeQ, hfree]
  rw [List.perm_iff_count] at hruns ⊢
  intro i
  have hr := hruns i
  simp only [List.count_append, List.count_cons] at hr ⊢
  omega

/-- The tree with the target of a merge has the same indices after the sources are freed. -/
theorem Kept.pool_rebuild {pos : ℕ} (h : lsm.Kept g p []) (hrange : p.range ≤ uint32Max)
    (hok : lsm.rebuild g pos = .ok lsm') :
  (lsm'.pool []).Perm (lsm.pool [])
  := by
  simp only [Lsmtree.rebuild, bind_eq_ok, orThrow_eq_ok] at hok
  obtain ⟨lev, hlev, src, hsrc, ⟨target, sc⟩, hpop, st, hmerge, lev', hins, hfree⟩ := hok
  obtain ⟨idx, hadd, rfl⟩ := populateNormal_ok hpop
  obtain ⟨rest, hruns, hset⟩ := runs_perm hlev hsrc
  refine (pool_freeRuns hfree).trans ?_
  refine h.pool_merge hrange hruns hadd hmerge ⟨rfl, rfl, Iff.rfl, rfl, rfl, rfl, ?_⟩
  have hruns' := (hset lev').append_right lsm.lost
  rw [insertRun_ok hins] at hruns'
  apply hruns'

theorem Kept.pool_compact {first second : ℕ} (h : lsm.Kept g p []) (hrange : p.range ≤ uint32Max)
    (hok : lsm.compact g first second = .ok lsm') :
  (lsm'.pool []).Perm (lsm.pool [])
  := by
  unfold Lsmtree.compact at hok
  split at hok
  · rename_i diskIdx hphase
    have hbusy : lsm.phase ≠ .idle := by simp [hphase]
    rw [bind_eq_ok] at hok
    obtain ⟨lev, hlev, hok⟩ := hok
    rw [orThrow_eq_ok] at hlev
    split at hok
    · simp only [Lsmtree.compactLevel, bind_eq_ok, orThrow_eq_ok] at hok
      obtain ⟨desLev, hdes, ⟨srcs, rest⟩, htarget, ⟨target, sc⟩, hpop, st, hmerge, desLev', hins,
        hfree⟩ := hok
      obtain ⟨idx, hadd, rfl⟩ := populateNormal_ok hpop
      obtain ⟨stay, hruns, hruns'⟩ :=
        compacted_runs hlev hdes htarget (stay_perm srcs.length _) hins
      refine (pool_freeRuns hfree).trans ?_
      refine h.pool_merge hrange hruns hadd hmerge ⟨rfl, rfl, ?_, rfl, rfl, rfl, hruns'⟩
      use fun hidle => absurd hidle (phase_ne_idle _ _), fun hidle => absurd hidle hbusy
    · cases hok
      exact .refl _
  · cases hok

theorem pool_finish (hok : lsm.finish g = .ok lsm') :
  (lsm'.pool []).Perm (lsm.pool [])
  := by
  simp only [Lsmtree.finish, bind_eq_ok, require_eq_ok] at hok
  obtain ⟨-, hphase, lsm₁, hfree, ⟨memtable, sc⟩, hpop, hret⟩ := hok
  cases hret
  simp only [populateLog, bind_eq_ok] at hpop
  obtain ⟨⟨idx, sc'⟩, hadd, hpop⟩ := hpop
  cases hpop
  obtain ⟨hq, -⟩ := Books.addRun_ok hadd
  obtain ⟨sc₁, dev₁, hrun, rfl⟩ := freeRun_ok hfree
  simp only [Run.free, bind_eq_ok] at hrun
  obtain ⟨dev₂, -, hret⟩ := hrun
  cases hret
  change lsm.sc.freeQ ++ [lsm.memtable.info] = idx :: sc'.freeQ at hq
  change List.Perm ((idx :: lsm.runs.map (·.info)) ++ sc'.freeQ)
    ((lsm.memtable.info :: lsm.runs.map (·.info)) ++ lsm.sc.freeQ)
  rw [List.perm_iff_count]
  intro i
  have hcount := congrArg (List.count i) hq
  simp only [List.count_append, List.count_cons, List.count_nil] at hcount ⊢
  omega

/-- Every step keeps the indices together. -/
theorem Kept.pool_step {op : LsmOp δ} (h : lsm.Kept g p []) (hrange : p.range ≤ uint32Max)
    (honce : FlushesOnce g lsm op) (hok : lsm.step g op = .ok lsm') :
  (lsm'.pool []).Perm (lsm.pool [])
  := by
  cases op with
  | write lba d => apply h.pool_write hrange hok
  | flush => apply h.pool_flush hrange honce hok
  | compact first second => apply h.pool_compact hrange hok
  | force pos =>
      simp only [Lsmtree.step, Lsmtree.force, bind_eq_ok] at hok
      obtain ⟨-, -, hok⟩ := hok
      apply h.pool_rebuild hrange hok
  | finish => apply pool_finish hok
  | cleanLastLevel pos =>
      simp only [Lsmtree.step, Lsmtree.cleanLastLevel, bind_eq_ok] at hok
      obtain ⟨-, -, hok⟩ := hok
      apply h.pool_rebuild hrange hok

theorem pool_init {blank : δ} (h : init g p blank = .ok lsm) :
  (lsm.pool []).Perm (List.range (p.totalRunNum + p.spareRunNum))
  := by
  obtain ⟨-, -, hruns, -, -, mapType, idx, hadd, hmem⟩ := init_ok h
  obtain ⟨hfree, -⟩ := Books.addRun_ok hadd
  change List.range _ = idx :: lsm.sc.freeQ at hfree
  rw [pool, hruns, hmem, hfree]
  exact .refl _

/-- Every level has no more runs than it has room for, and room for one more unless the loop of
`__compaction_another_level` is at it, and no run is lost. -/
theorem levels_fit {blank : δ} {lsm₀ : Lsmtree δ} {ops : List (LsmOp δ)} (hp : p.Sized)
    (hinit : init g p blank = .ok lsm₀)
    (hrun : Transition.run (Lsmtree.step g) lsm₀ ops = .ok lsm) :
  lsm.lost = [] ∧ ∀ (i : ℕ) (lev : Level δ), lsm.disk[i]? = some lev →
    lev.runs.length ≤ p.maxRunNum i ∧ (lsm.phase ≠ .compacting i → lev.isFull = false)
  := by
  have hfits := (fits_init hp hinit).run hp hrun
  use hfits.lost
  intro i lev hlev
  use (hfits.maxRunNum hlev).1 ▸ hfits.le i lev hlev
  intro hne
  have hroom := hfits.room i lev hlev hne
  simpa [Level.isFull] using hroom

/-- Two memtables are merged with as few indices as possible. -/
theorem mergeTwo_spare :
  ∃ lsm₀ lsm, init tinyGeometry spareParam 0 = .ok lsm₀ ∧
    Guarded (Lsmtree.step tinyGeometry) (FlushesOnce tinyGeometry) lsm₀ mergeTwo ∧
    Transition.run (Lsmtree.step tinyGeometry) lsm₀ mergeTwo = .ok lsm ∧
    lsm.disk.map (·.runs.length) = [0, 1, 0] ∧
    lsm.sc.freeQ.length = 6
  := by
  have hview : (init tinyGeometry spareParam 0).map (fun lsm₀ =>
      (decide (Guarded (Lsmtree.step tinyGeometry)
          (fun lsm op => blocksOnce tinyGeometry lsm op = true) lsm₀ mergeTwo),
        (Transition.run (Lsmtree.step tinyGeometry) lsm₀ mergeTwo).map fun lsm =>
          (lsm.disk.map (·.runs.length), lsm.sc.freeQ.length)))
      = .ok (true, .ok ([0, 1, 0], 6)) := by
    decide +kernel
  obtain ⟨lsm₀, hinit, hview⟩ := map_eq_ok hview
  obtain ⟨honce, hview⟩ := Prod.mk.inj hview
  obtain ⟨lsm, hrun, hview⟩ := map_eq_ok hview
  obtain ⟨hlevels, hfree⟩ := Prod.mk.inj hview
  exact ⟨lsm₀, lsm, hinit, (of_decide_eq_true honce).imp fun _ _ => blocksOnce.flushesOnce,
    hrun, hlevels, hfree⟩

theorem sized_spareParam :
  spareParam.Sized
  := ⟨by decide, by decide, by decide, by decide⟩

theorem levels_fit_mergeTwo :
  ∃ lsm₀ lsm, init tinyGeometry spareParam 0 = .ok lsm₀ ∧
    Transition.run (Lsmtree.step tinyGeometry) lsm₀ mergeTwo = .ok lsm ∧
    lsm.disk.map (·.runs.length) = [0, 1, 0] ∧
    lsm.lost = [] ∧ ∀ (i : ℕ) (lev : Level ℕ), lsm.disk[i]? = some lev →
      lev.runs.length ≤ spareParam.maxRunNum i ∧
        (lsm.phase ≠ .compacting i → lev.isFull = false)
  := by
  obtain ⟨lsm₀, lsm, hinit, -, hrun, hlevels, -⟩ := mergeTwo_spare
  exact ⟨lsm₀, lsm, hinit, hrun, hlevels, levels_fit sized_spareParam hinit hrun⟩

theorem pool_run {blank : δ} {lsm₀ : Lsmtree δ} {ops : List (LsmOp δ)}
    (hrange : p.range ≤ uint32Max) (hinit : init g p blank = .ok lsm₀)
    (honce : Guarded (Lsmtree.step g) (FlushesOnce g) lsm₀ ops)
    (hrun : Transition.run (Lsmtree.step g) lsm₀ ops = .ok lsm) :
  lsm.Kept g p [] ∧ (lsm.pool []).Perm (List.range (p.totalRunNum + p.spareRunNum))
  := by
  refine run_preserves (fun l => l.Kept g p [] ∧
    (l.pool []).Perm (List.range (p.totalRunNum + p.spareRunNum))) ?_
    ⟨kept_init hinit, pool_init hinit⟩ honce hrun
  rintro s op s' ⟨hkept, hs⟩ hguard hstep
  constructor
  · apply hkept.step hrange hguard hstep
  · apply (hkept.pool_step hrange hguard hstep).trans hs

/-- An index that the shortcut gives for an lba is one of those that it was made with. -/
theorem owner_lt {blank : δ} {lsm₀ : Lsmtree δ} {ops : List (LsmOp δ)}
    (hrange : p.range ≤ uint32Max) (hinit : init g p blank = .ok lsm₀)
    (honce : Guarded (Lsmtree.step g) (FlushesOnce g) lsm₀ ops)
    (hrun : Transition.run (Lsmtree.step g) lsm₀ ops = .ok lsm) {lba i : ℕ}
    (howner : lsm.sc.scMap lba = some i) :
  i < p.totalRunNum + p.spareRunNum
  := by
  obtain ⟨hkept, hpool⟩ := pool_run hrange hinit honce hrun
  obtain ⟨r, hr, rfl, -⟩ := hkept.books.owner lba i howner
  have hall : r ∈ lsm.memtable :: lsm.runs := by
    rw [live] at hr
    split at hr
    · apply hr
    · apply List.mem_cons_of_mem _ hr
  apply List.mem_range.mp
  apply hpool.mem_iff.mp
  apply List.mem_append_left _ (List.mem_map_of_mem hall)

/-- Every index is free or belongs to one run, and some index is always free, so no run has to
wait for one. -/
theorem indices_partitioned {blank : δ} {lsm₀ : Lsmtree δ} {ops : List (LsmOp δ)} (hp : p.Sized)
    (hrange : p.range ≤ uint32Max) (hinit : init g p blank = .ok lsm₀)
    (honce : Guarded (Lsmtree.step g) (FlushesOnce g) lsm₀ ops)
    (hrun : Transition.run (Lsmtree.step g) lsm₀ ops = .ok lsm) :
  ((lsm.memtable :: lsm.runs).map (·.info) ++ lsm.sc.freeQ).Perm
      (List.range (p.totalRunNum + p.spareRunNum)) ∧
    lsm.sc.freeQ ≠ []
  := by
  obtain ⟨-, hpool⟩ := pool_run hrange hinit honce hrun
  use hpool
  intro hnil
  have hlen := hpool.length_eq
  have hfits := ((fits_init hp hinit).run hp hrun).length_le
  rw [pool, hnil, List.append_nil, List.length_map, List.nil_append, List.length_cons,
    List.length_range, hp.total] at hlen
  have hspare := hp.spare
  omega

theorem indices_partitioned_mergeTwo :
  ∃ lsm₀ lsm, init tinyGeometry spareParam 0 = .ok lsm₀ ∧
    Transition.run (Lsmtree.step tinyGeometry) lsm₀ mergeTwo = .ok lsm ∧
    ((lsm.memtable :: lsm.runs).map (·.info) ++ lsm.sc.freeQ).Perm (List.range 8) ∧
    lsm.sc.freeQ.length = 6
  := by
  obtain ⟨lsm₀, lsm, hinit, honce, hrun, -, hfree⟩ := mergeTwo_spare
  have hrange : spareParam.range ≤ uint32Max := by decide
  exact ⟨lsm₀, lsm, hinit, hrun,
    (indices_partitioned sized_spareParam hrange hinit honce hrun).1, hfree⟩

end Lsmtree

end AppL
