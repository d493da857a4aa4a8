import AppL.Lsm.Store

/-!
# Owners of the lbas

The shortcut names the run with the newest copy of an lba, and this run ranks above all others that
have a copy.  A run of the last level that is rebuilt gets the level number of the level above, so
that this ends when a later merge brings a newer copy into the last level.
-/

namespace AppL

open Transition Directory

variable {δ : Type} {g : Geometry}

namespace Lsmtree

variable {lsm : Lsmtree δ} {p : Param} {rebuilds : Bool} {val : ℕ → Option δ}

/-- The owner of an lba is a run in use, and what it has is what the tree stores. -/
theorem Fresh.owner (h : lsm.Fresh rebuilds g p val) (hkept : lsm.Kept g p []) {lba : ℕ} {d : δ}
    (hval : val lba = some d) :
  ∃ r ∈ lsm.live, lsm.sc.scMap lba = some r.info ∧ r.copyOf g lsm.dev lba = some d
  := by
  have hvalue := h.value_eq hkept lba
  rw [hval, value] at hvalue
  cases ho : lsm.sc.scMap lba with
  | none =>
      rw [h.current.none lba ho] at hval
      cases hval
  | some i =>
      rw [ho, Option.bind_eq_bind, Option.bind_some, Option.bind_eq_bind,
        Option.bind_eq_some_iff] at hvalue
      obtain ⟨r, hfind, hcopy⟩ := hvalue
      have hinfo : r.info = i := by simpa using List.find?_some hfind
      use r, List.mem_of_find?_eq_some hfind, congrArg some hinfo.symm, hcopy

/-- The owner of an lba is newer than a run that has an older copy of it.  For a block that was
moved with old data it may be newer than the run that the block was moved from instead. -/
theorem Fresh.outranked (h : lsm.Fresh rebuilds g p val) {r : Run δ} {e : Entry} {i : ℕ}
    (hr : r ∈ lsm.runs) (he : e ∈ r.entries) (ho : lsm.sc.scMap e.lba = some i)
    (hne : r.info ≠ i) :
  lsm.sc.oldEntry r.info e = true ∧
    (0 < recencyCmp (lsm.sc.infoSet i) (lsm.sc.infoSet r.info) ∨
      ∃ o, e.orig = some o ∧ Outranks (lsm.sc.rank i) o)
  := by
  have howner : lsm.sc.scMap e.lba ≠ some r.info := by
    rw [ho]
    exact fun heq => hne (Option.some.inj heq).symm
  have hold := h.current.old _ (.inr ⟨r, hr, e, he, rfl⟩) howner
  refine ⟨(ShortcutMaster.oldEntry_iff howner).mpr hold, ?_⟩
  obtain ⟨o, ho', hrank⟩ := hold
  cases ho.symm.trans ho'
  rw [recencyCmp_pos]
  apply hrank

/-- Every lba in the memtable is owned by it. -/
theorem Fresh.front_owner (h : lsm.Fresh rebuilds g p val) (hkept : lsm.Kept g p []) {lba : ℕ}
    (hidle : lsm.phase = .idle) (hne : lsm.sc.scMap lba ≠ some lsm.memtable.info) :
  lsm.memtable.copyOf g lsm.dev lba = none
  := by
  obtain ⟨-, items, hlog⟩ := hkept.log hidle
  rw [Run.copyOf, hlog.log.type]
  dsimp only
  by_contra hsome
  obtain ⟨d, hd⟩ := Option.ne_none_iff_exists'.mp hsome
  obtain ⟨o, ho, hrank⟩ := h.current.old (lsm.memtable.info, ⟨lba, d, none⟩)
    (.inl ⟨hidle, lba, d, hd, rfl⟩) hne
  rcases hrank with hrank | ⟨s, hs, -⟩
  · have hlevel := hrank.level_le
    obtain ⟨c, hc, -⟩ := h.current.held lba o ho
    rcases hc with ⟨-, _, _, -, hx⟩ | ⟨r, hr, _, -, hx⟩
    · cases hx
      apply not_outranks_self _ hrank
    · cases hx
      have hpos := h.levels.pos r hr
      rw [h.levels.front hidle] at hlevel
      apply Nat.not_le_of_lt hpos hlevel
  · cases hs

/-- In an orderly run every lba that was written is owned by a run in use, and the copy that the
owner has is the last one.  The owner is newer than every other run that has a copy of the lba,
except for a block that was moved with old data, for which it may be newer than the run that the
block was moved from; and the checks of a merge find out that such a copy is old. -/
theorem owner_newest {blank : δ} {lsm₀ : Lsmtree δ} {ops : List (LsmOp δ)}
    (hrange : p.range ≤ uint32Max) (hinit : init g p blank = .ok lsm₀)
    (hguard : Guarded (Lsmtree.step g) (Orderly true g) lsm₀ ops)
    (hrun : Transition.run (Lsmtree.step g) lsm₀ ops = .ok lsm) {lba : ℕ} {d : δ}
    (hwritten : written ops lba = some d) :
  ∃ r ∈ lsm.live, lsm.sc.scMap lba = some r.info ∧ r.copyOf g lsm.dev lba = some d ∧
    (lsm.phase = .idle → r.info ≠ lsm.memtable.info →
      lsm.memtable.copyOf g lsm.dev lba = none) ∧
    ∀ r' ∈ lsm.runs, r'.info ≠ r.info → ∀ e ∈ r'.entries, e.lba = lba →
      lsm.sc.oldEntry r'.info e = true ∧
      (0 < recencyCmp (lsm.sc.infoSet r.info) (lsm.sc.infoSet r'.info) ∨
        ∃ o, e.orig = some o ∧ Outranks (lsm.sc.rank r.info) o)
  := by
  obtain ⟨hfresh, hkept⟩ := (fresh_init hinit).run (kept_init hinit) hrange hguard hrun
  obtain ⟨r, hr, howner, hcopy⟩ := hfresh.owner hkept hwritten
  use r, hr, howner, hcopy
  constructor
  · intro hidle hne
    apply hfresh.front_owner hkept hidle
    rw [howner]
    exact fun heq => hne (Option.some.inj heq)
  · rintro r' hr' hne e he rfl
    apply hfresh.outranked hr' he howner hne

/-- `Orderly`, for a state that is at hand and runs that may be rebuilt. -/
def ordered (g : Geometry) (lsm : Lsmtree δ) (op : LsmOp δ) : Bool :=
  blocksOnce g lsm op &&
    (match op with
      | .force _ => 1 < lsm.param.totalLevelNum
      | .cleanLastLevel _ => 1 < lsm.param.totalLevelNum
      | .compact first second => lsm.SparesRebuilt first second
      | _ => true) &&
    lsm.live.all fun r => 0 < subInt32 lsm.sc.nowRecency (lsm.sc.rank r.info).2

theorem ordered.orderly {op : LsmOp δ} (h : ordered g lsm op = true) :
  Orderly true g lsm op
  := by
  simp only [ordered, Bool.and_eq_true, List.all_eq_true, decide_eq_true_eq] at h
  obtain ⟨⟨honce, hkeeps⟩, hrecent⟩ := h
  refine ⟨blocksOnce.flushesOnce honce, ?_, ?_, hrecent⟩
  · rintro pos (rfl | rfl)
    · use rfl, of_decide_eq_true hkeeps
    · use rfl, of_decide_eq_true hkeeps
  · rintro - first second rfl
    apply of_decide_eq_true hkeeps

/-- Two levels, of two and of three runs. -/
def shallowParam : Param := ⟨false, 4, 2, 2, 4, 3, 1, 1, 60⟩

/-- The only run of the last level is rebuilt, a second one comes into this level, the first one
is rebuilt again, and one of its lbas is written. -/
def rebuildApart : List (LsmOp ℕ) :=
  [1, 2, 5, 6].map (.write · 1) ++ [.flush, .compact 0 1, .finish] ++
    [3, 6, 4, 1].map (.write · 2) ++ [.flush, .compact 0 1, .compact 0 1, .force 0, .finish] ++
    [7, 8, 9, 10].map (.write · 3) ++ [.flush, .compact 0 1, .finish] ++
    [11, 8, 12, 13].map (.write · 4) ++
    [.flush, .compact 0 1, .compact 0 1, .finish, .cleanLastLevel 1, .write 6 5]

theorem rebuildApart_orderly :
  ∃ lsm₀ lsm, init tinyGeometry shallowParam 0 = .ok lsm₀ ∧
    Guarded (Lsmtree.step tinyGeometry) (Orderly true tinyGeometry) lsm₀ rebuildApart ∧
    Transition.run (Lsmtree.step tinyGeometry) lsm₀ rebuildApart = .ok lsm ∧
    lsm.runs.map (fun r => ((lsm.sc.rank r.info).1, r.entries.map (·.lba)))
      = [(1, [1, 2, 3, 4, 5, 6]), (2, [7, 8, 9, 10, 11, 12, 13])] ∧
    written rebuildApart 6 = some 5
  := by
  have hview : (init tinyGeometry shallowParam 0).map (fun lsm₀ =>
      (decide (Guarded (Lsmtree.step tinyGeometry)
          (fun lsm op => ordered tinyGeometry lsm op = true) lsm₀ rebuildApart),
        (Transition.run (Lsmtree.step tinyGeometry) lsm₀ rebuildApart).map fun lsm =>
          lsm.runs.map fun r => ((lsm.sc.rank r.info).1, r.entries.map (·.lba))))
      = .ok (true, .ok [(1, [1, 2, 3, 4, 5, 6]), (2, [7, 8, 9, 10, 11, 12, 13])]) := by
    decide +kernel
  obtain ⟨lsm₀, hinit, hview⟩ := map_eq_ok hview
  obtain ⟨horderly, hview⟩ := Prod.mk.inj hview
  obtain ⟨lsm, hrun, hruns⟩ := map_eq_ok hview
  exact ⟨lsm₀, lsm, hinit, (of_decide_eq_true horderly).imp fun _ _ => ordered.orderly, hrun,
    hruns, by decide +kernel⟩

/-- The lba 6 is owned by the memtable, and the rebuilt run has an older copy of it. -/
theorem owner_newest_rebuildApart :
  ∃ lsm₀ lsm r, init tinyGeometry shallowParam 0 = .ok lsm₀ ∧
    Transition.run (Lsmtree.step tinyGeometry) lsm₀ rebuildApart = .ok lsm ∧ r ∈ lsm.live ∧
    lsm.runs.map (fun r => ((lsm.sc.rank r.info).1, r.entries.map (·.lba)))
      = [(1, [1, 2, 3, 4, 5, 6]), (2, [7, 8, 9, 10, 11, 12, 13])] ∧
    lsm.sc.scMap 6 = some r.info ∧ r.copyOf tinyGeometry lsm.dev 6 = some 5 ∧
    ∀ r' ∈ lsm.runs, r'.info ≠ r.info → ∀ e ∈ r'.entries, e.lba = 6 →
      lsm.sc.oldEntry r'.info e = true ∧
      (0 < recencyCmp (lsm.sc.infoSet r.info) (lsm.sc.infoSet r'.info) ∨
        ∃ o, e.orig = some o ∧ Outranks (lsm.sc.rank r.info) o)
  := by
  obtain ⟨lsm₀, lsm, hinit, horderly, hrun, hruns, hwritten⟩ := rebuildApart_orderly
  have hrange : shallowParam.range ≤ uint32Max := by decide
  obtain ⟨r, hr, howner, hcopy, -, hnewest⟩ := owner_newest hrange hinit horderly hrun hwritten
  exact ⟨lsm₀, lsm, r, hinit, hrun, hr, hruns, howner, hcopy, hnewest⟩

/-- Four memtables, each with its own number as data, and two runs of the last level that are
rebuilt. -/
def rebuildTwice : List (LsmOp ℕ) :=
  [1, 2, 5, 6].map (.write · 1) ++ [.flush, .compact 0 1, .finish] ++
    [3, 6, 4, 1].map (.write · 2) ++ [.flush, .compact 0 1, .compact 0 1, .force 0, .finish] ++
    [5, 6, 2, 1].map (.write · 3) ++ [.flush, .compact 0 1, .finish] ++
    [5, 2, 3, 6].map (.write · 4) ++ [.flush, .compact 0 1, .compact 0 1, .force 1]

/-- A run that is rebuilt gets the level above its own, and old copies in it outrank newer ones:
the shortcut names it for the lba 6, of which it has the data of the second memtable, although the
other run of the last level has the data of the fourth. -/
theorem value_ne_written_rebuildTwice :
  ∃ lsm₀ lsm, init tinyGeometry shallowParam 0 = .ok lsm₀ ∧
    Transition.run (Lsmtree.step tinyGeometry) lsm₀ rebuildTwice = .ok lsm ∧
    lsm.value tinyGeometry 6 = some 2 ∧ written rebuildTwice 6 = some 4 ∧
    ∃ r ∈ lsm.live, lsm.sc.scMap 6 ≠ some r.info ∧ r.copyOf tinyGeometry lsm.dev 6 = some 4
  := by
  have hview : (init tinyGeometry shallowParam 0).map (fun lsm₀ =>
      (Transition.run (Lsmtree.step tinyGeometry) lsm₀ rebuildTwice).map fun lsm =>
        decide (lsm.value tinyGeometry 6 = some 2 ∧ written rebuildTwice 6 = some 4 ∧
          ∃ r ∈ lsm.live, lsm.sc.scMap 6 ≠ some r.info ∧
            r.copyOf tinyGeometry lsm.dev 6 = some 4)) = .ok (.ok true) := by
    decide +kernel
  obtain ⟨lsm₀, hinit, hview⟩ := map_eq_ok hview
  obtain ⟨lsm, hrun, hview⟩ := map_eq_ok hview
  exact ⟨lsm₀, lsm, hinit, hrun, of_decide_eq_true hview⟩

end Lsmtree

end AppL
