import AppL.Lsm.Store

/-!
# Calls of the tree

A call of `lsmtree_insert` is a sequence of steps: when the memtable is full it is flushed, the
levels are compacted as long as they are full, and a new memtable is taken, before the sector is
written.  The loop over the levels ends, because every turn goes one level deeper.
-/

namespace AppL

open Transition

variable {δ : Type}

/-- A call of `lsmtree_insert`, with the runs of the last level that it merges, and those that it
rebuilds as long as `gc_check_enough_space` fails, by their positions in the level. -/
structure Insertion (δ : Type) where
  first : ℕ
  second : ℕ
  forced : List ℕ
  lba : ℕ
  data : δ

namespace Lsmtree

variable (g : Geometry)

/-- The loop of `__compaction_another_level`. -/
def compactionAnotherLevel (first second : ℕ) : ℕ → Lsmtree δ → Except Abort (Lsmtree δ)
  | 0, _ => .error .endlessLoop
  | fuel + 1, lsm =>
      match lsm.phase with
      | .compacting _ => do
          let lsm ← lsm.compact g first second
          compactionAnotherLevel first second fuel lsm
      | _ => .ok lsm

/-- `compaction_flush`, after which `lsmtree_insert` takes a new memtable. -/
def compactionFlush (lsm : Lsmtree δ) (c : Insertion δ) : Except Abort (Lsmtree δ) := do
  let lsm ← lsm.flush g
  let lsm ← compactionAnotherLevel g c.first c.second (lsm.param.totalLevelNum + 1) lsm
  let lsm ← c.forced.foldlM (fun lsm pos => lsm.force g pos) lsm
  lsm.finish g

/-- A full memtable is flushed before `lsmtree_insert` goes on. -/
def makeRoom (lsm : Lsmtree δ) (c : Insertion δ) : Except Abort (Lsmtree δ) :=
  if lsm.memtable.isFull then lsm.compactionFlush g c else .ok lsm

/-- `lsmtree_insert`. -/
def insert (lsm : Lsmtree δ) (c : Insertion δ) : Except Abort (Lsmtree δ) := do
  let lsm ← lsm.makeRoom g c
  lsm.write g c.lba c.data

end Lsmtree

/-- The store after a call. -/
def Insertion.store (val : ℕ → Option δ) (c : Insertion δ) : ℕ → Option δ :=
  Function.update val c.lba (some c.data)

/-- The steps of `compaction_flush`, with `turns` turns of the loop over the levels. -/
def Insertion.flushSteps (c : Insertion δ) (turns : ℕ) : List (LsmOp δ) :=
  .flush :: List.replicate turns (.compact c.first c.second) ++ c.forced.map .force ++ [.finish]

/-- The steps of a call. -/
def Insertion.steps (c : Insertion δ) (full : Bool) (turns : ℕ) : List (LsmOp δ) :=
  (if full then c.flushSteps turns else []) ++ [.write c.lba c.data]

/-- The steps are those of the call, with at most as many turns of the loop over the levels as
there are levels. -/
def Insertion.Takes (p : Param) (c : Insertion δ) (ops : List (LsmOp δ)) : Prop :=
  ∃ full, ∃ turns ≤ p.totalLevelNum, ops = c.steps full turns

/-- The sector that a call writes. -/
def Insertion.sector (c : Insertion δ) : ℕ × δ := (c.lba, c.data)

/-- The sector that a step writes. -/
def LsmOp.sector : LsmOp δ → Option (ℕ × δ)
  | .write lba d => some (lba, d)
  | _ => none

namespace Lsmtree

variable {g : Geometry} {lsm lsm' : Lsmtree δ} {p : Param}

/-! ### The loop over the levels -/

/-- The tree has as many levels as its parameters say. -/
structure Shaped (p : Param) (lsm : Lsmtree δ) : Prop where
  param : lsm.param = p
  length : lsm.disk.length = p.totalLevelNum

theorem Shaped.freeRuns {rs : List (Run δ)} :
  ∀ {lsm : Lsmtree δ}, lsm.Shaped p → rs.foldlM (Lsmtree.freeRun g) lsm = .ok lsm' →
    lsm'.Shaped p ∧ lsm'.phase = lsm.phase
  := by
  induction rs with
  | nil =>
      intro lsm h hok
      cases hok
      exact ⟨h, rfl⟩
  | cons r rs ih =>
      intro lsm h hok
      rw [List.foldlM_cons, bind_eq_ok] at hok
      obtain ⟨lsm₁, hfst, hrest⟩ := hok
      obtain ⟨sc, dev, -, rfl⟩ := freeRun_ok hfst
      obtain ⟨hshaped, hphase⟩ := ih (by exact ⟨h.param, h.length⟩) hrest
      use hshaped, hphase

theorem Shaped.rebuild {pos : ℕ} (h : lsm.Shaped p) (hok : lsm.rebuild g pos = .ok lsm') :
  lsm'.Shaped p
  := by
  simp only [Lsmtree.rebuild, bind_eq_ok] at hok
  obtain ⟨lev, -, src, -, ⟨target, sc⟩, -, st, -, lev', -, hfree⟩ := hok
  refine (Shaped.freeRuns ?_ hfree).1
  use h.param, List.length_set.trans h.length

/-- A turn of the loop ends it or goes one level deeper. -/
theorem Shaped.compact {first second i : ℕ} (h : lsm.Shaped p)
    (hphase : lsm.phase = .compacting i) (hok : lsm.compact g first second = .ok lsm') :
  lsm'.Shaped p ∧
    (lsm'.phase = .forcing ∨ lsm'.phase = .compacting (i + 1) ∧ i + 1 < p.totalLevelNum)
  := by
  simp only [Lsmtree.compact, hphase, bind_eq_ok, orThrow_eq_ok] at hok
  obtain ⟨lev, hlev, hok⟩ := hok
  split at hok
  · simp only [Lsmtree.compactLevel, bind_eq_ok, orThrow_eq_ok] at hok
    obtain ⟨desLev, hdes, ⟨srcs, rest⟩, -, ⟨target, sc⟩, -, st, -, desLev', -, hfree⟩ := hok
    have hset : ∀ lev lev', ((lsm.disk.set i lev).set (if i == lsm.param.totalLevelNum - 1 then i
        else i + 1) lev').length = p.totalLevelNum := fun _ _ =>
      (List.length_set.trans List.length_set).trans h.length
    obtain ⟨hshaped, hnext⟩ := Shaped.freeRuns (by exact ⟨h.param, hset _ _⟩) hfree
    use hshaped
    rw [hnext]
    cases hlast : i == lsm.param.totalLevelNum - 1 with
    | true => exact .inl rfl
    | false =>
        refine .inr ⟨rfl, ?_⟩
        rw [hlast, if_neg Bool.false_ne_true] at hdes
        rw [← h.length]
        apply (List.getElem?_eq_some_iff.mp hdes).1
  · cases hok
    use ⟨h.param, h.length⟩, .inl rfl

/-- The loop over the levels is a sequence of turns, and ends after as many as there are levels
from the one that it is at. -/
theorem Shaped.loop {first second : ℕ} (k : ℕ) :
  ∀ {lsm : Lsmtree δ} {i fuel : ℕ}, lsm.Shaped p → lsm.phase = .compacting i →
    p.totalLevelNum ≤ i + k → i < p.totalLevelNum → k < fuel →
    ∃ turns ≤ k, compactionAnotherLevel g first second fuel lsm
      = run (Lsmtree.step g) lsm (List.replicate turns (.compact first second)) ∧
      ∀ lsm', compactionAnotherLevel g first second fuel lsm = .ok lsm' →
        lsm'.Shaped p ∧ lsm'.phase = .forcing
  := by
  induction k with
  | zero =>
      intro lsm i fuel _ _ hle hlt _
      exact absurd hlt (Nat.not_lt.mpr hle)
  | succ k ih =>
      intro lsm i fuel h hphase hle hlt hfuel
      obtain ⟨fuel, rfl⟩ := Nat.exists_eq_succ_of_ne_zero (Nat.ne_of_gt (Nat.zero_lt_of_lt hfuel))
      rw [compactionAnotherLevel, hphase]
      dsimp only
      cases hturn : lsm.compact g first second with
      | error e =>
          refine ⟨1, Nat.succ_pos k, ?_, fun _ hok => by cases hok⟩
          rw [List.replicate_one, run, Lsmtree.step, hturn]
          rfl
      | ok lsm₁ =>
          obtain ⟨h₁, hnext⟩ := h.compact hphase hturn
          obtain ⟨turns, hturns, heq, hend⟩ : ∃ turns ≤ k,
              compactionAnotherLevel g first second fuel lsm₁
                = run (Lsmtree.step g) lsm₁ (List.replicate turns (.compact first second)) ∧
              ∀ lsm', compactionAnotherLevel g first second fuel lsm₁ = .ok lsm' →
                lsm'.Shaped p ∧ lsm'.phase = .forcing := by
            rcases hnext with hforcing | ⟨hdeeper, hlt'⟩
            · obtain ⟨fuel, rfl⟩ := Nat.exists_eq_succ_of_ne_zero
                (Nat.ne_of_gt (Nat.zero_lt_of_lt (Nat.lt_of_succ_lt_succ hfuel)))
              refine ⟨0, Nat.zero_le k, ?_, ?_⟩
              · rw [compactionAnotherLevel, hforcing]
                rfl
              · intro lsm' hok
                rw [compactionAnotherLevel, hforcing] at hok
                cases hok
                use h₁, hforcing
            · apply ih h₁ hdeeper (by omega) hlt' (Nat.lt_of_succ_lt_succ hfuel)
          refine ⟨turns + 1, Nat.succ_le_succ hturns, ?_, hend⟩
          rw [List.replicate_succ, run, Lsmtree.step, hturn]
          apply heq

/-! ### Calls -/

theorem Shaped.flush (h : lsm.Shaped p) (hok : lsm.flush g = .ok lsm') :
  lsm'.Shaped p ∧ lsm'.phase = .compacting 0 ∧ 0 < p.totalLevelNum
  := by
  simp only [Lsmtree.flush, bind_eq_ok, orThrow_eq_ok] at hok
  obtain ⟨-, -, lev, hlev, ⟨r, dev⟩, -, ⟨target, sc⟩, -, st, -, lev', -, hret⟩ := hok
  cases hret
  refine ⟨⟨h.param, List.length_set.trans h.length⟩, rfl, ?_⟩
  rw [← h.length]
  apply (List.getElem?_eq_some_iff.mp hlev).1

/-- `compaction_flush` is a sequence of steps. -/
theorem Shaped.compactionFlush (h : lsm.Shaped p) (c : Insertion δ) :
  ∃ turns ≤ p.totalLevelNum,
    lsm.compactionFlush g c = run (Lsmtree.step g) lsm (c.flushSteps turns)
  := by
  rw [Lsmtree.compactionFlush]
  cases hflush : lsm.flush g with
  | error e =>
      use 0, Nat.zero_le _
      rw [Insertion.flushSteps, List.append_assoc, List.cons_append, run, Lsmtree.step, hflush]
      rfl
  | ok lsm₁ =>
      obtain ⟨h₁, hphase, hpos⟩ := h.flush hflush
      obtain ⟨turns, hturns, hloop, -⟩ := @Shaped.loop δ g p c.first c.second p.totalLevelNum lsm₁ 0
        (lsm₁.param.totalLevelNum + 1) h₁ hphase (by omega) hpos (by rw [h₁.param]; omega)
      use turns, hturns
      rw [Insertion.flushSteps, List.append_assoc, List.cons_append, run, Lsmtree.step, hflush]
      change (compactionAnotherLevel g c.first c.second (lsm₁.param.totalLevelNum + 1) lsm₁ >>=
        fun lsm => c.forced.foldlM (fun lsm pos => lsm.force g pos) lsm >>=
        fun lsm => lsm.finish g) = run (Lsmtree.step g) lsm₁ _
      rw [hloop, run_append_eq]
      congr 1
      funext lsm₂
      rw [run_append_eq, ← foldlM_eq_run]
      congr 1
      funext lsm₃
      apply (bind_pure _).symm

/-- A call is a sequence of steps. -/
theorem Shaped.insert (h : lsm.Shaped p) (c : Insertion δ) :
  ∃ turns ≤ p.totalLevelNum,
    lsm.insert g c = run (Lsmtree.step g) lsm (c.steps lsm.memtable.isFull turns)
  := by
  rw [Lsmtree.insert, makeRoom]
  have hwrite : ∀ t : Lsmtree δ, t.write g c.lba c.data
      = run (Lsmtree.step g) t [.write c.lba c.data] := fun t => (bind_pure _).symm
  cases lsm.memtable.isFull with
  | false =>
      use 0, Nat.zero_le _
      apply hwrite lsm
  | true =>
      obtain ⟨turns, hturns, hflush⟩ := h.compactionFlush c
      use turns, hturns
      rw [if_pos rfl, hflush, Insertion.steps, if_pos rfl]
      refine Eq.trans ?_ (run_append_eq _ _ _).symm
      congr 1
      funext t
      apply hwrite t

/-- Every step keeps the number of levels. -/
theorem Shaped.step {op : LsmOp δ} (h : lsm.Shaped p) (hok : lsm.step g op = .ok lsm') :
  lsm'.Shaped p
  := by
  cases op with
  | write lba d =>
      simp only [Lsmtree.step, Lsmtree.write, bind_eq_ok] at hok
      obtain ⟨-, -, -, -, ⟨r, sc, dev⟩, -, hret⟩ := hok
      cases hret
      use h.param, h.length
  | flush => apply (h.flush hok).1
  | compact first second =>
      cases hphase : lsm.phase with
      | compacting i => apply (h.compact hphase hok).1
      | idle =>
          simp only [Lsmtree.step, Lsmtree.compact, hphase] at hok
          cases hok
      | forcing =>
          simp only [Lsmtree.step, Lsmtree.compact, hphase] at hok
          cases hok
  | force pos =>
      simp only [Lsmtree.step, Lsmtree.force, bind_eq_ok] at hok
      obtain ⟨-, -, hok⟩ := hok
      apply h.rebuild hok
  | finish =>
      simp only [Lsmtree.step, Lsmtree.finish, bind_eq_ok] at hok
      obtain ⟨-, -, lsm₁, hfree, ⟨memtable, sc⟩, -, hret⟩ := hok
      cases hret
      obtain ⟨sc₁, dev₁, -, rfl⟩ := freeRun_ok hfree
      use h.param, h.length
  | cleanLastLevel pos =>
      simp only [Lsmtree.step, Lsmtree.cleanLastLevel, bind_eq_ok] at hok
      obtain ⟨-, -, hok⟩ := hok
      apply h.rebuild hok

theorem shaped_init {blank : δ} (h : init g p blank = .ok lsm) :
  lsm.Shaped p ∧ lsm.phase = .idle
  := by
  simp only [init, bind_eq_ok] at h
  obtain ⟨⟨memtable, sc⟩, -, hret⟩ := h
  cases hret
  exact ⟨⟨rfl, by rw [List.length_map, List.length_range]⟩, rfl⟩

/-- A call leaves a tree that can be written to. -/
theorem insert_idle {c : Insertion δ} (hok : lsm.insert g c = .ok lsm') :
  lsm'.phase = .idle
  := by
  simp only [Lsmtree.insert, Lsmtree.write, bind_eq_ok, require_eq_ok] at hok
  obtain ⟨lsm₁, -, -, ⟨hidle, -⟩, -, -, ⟨r, sc, dev⟩, -, hret⟩ := hok
  cases hret
  apply hidle

/-! ### Runs of calls -/

/-- The data that was given to every lba last. -/
def inserted (cs : List (Insertion δ)) : ℕ → Option δ := cs.foldl Insertion.store fun _ => none

theorem filterMap_sector_flushSteps (c : Insertion δ) (turns : ℕ) :
  (c.flushSteps turns).filterMap LsmOp.sector = []
  := by
  rw [List.filterMap_eq_nil_iff]
  intro op hop
  simp only [Insertion.flushSteps, List.mem_append, List.mem_cons, List.mem_replicate,
    List.mem_map, List.not_mem_nil, or_false] at hop
  rcases hop with ((rfl | ⟨-, rfl⟩) | ⟨pos, -, rfl⟩) | rfl
  · rfl
  · rfl
  · rfl
  · rfl

/-- The steps of a call write its sector and nothing else. -/
theorem filterMap_sector_steps (c : Insertion δ) (full : Bool) (turns : ℕ) :
  (c.steps full turns).filterMap LsmOp.sector = [c.sector]
  := by
  rw [Insertion.steps, List.filterMap_append]
  cases full with
  | false => rfl
  | true =>
      rw [if_pos rfl, filterMap_sector_flushSteps]
      rfl

theorem filterMap_sector_flatten {cs : List (Insertion δ)} {steps : List (List (LsmOp δ))}
    (h : List.Forall₂ (Insertion.Takes p) cs steps) :
  steps.flatten.filterMap LsmOp.sector = cs.map Insertion.sector
  := by
  induction h with
  | nil => rfl
  | cons htakes _ ih =>
      obtain ⟨full, turns, -, rfl⟩ := htakes
      rw [List.flatten_cons, List.filterMap_append, filterMap_sector_steps, ih]
      rfl

/-- What is written depends on the sectors only. -/
theorem foldl_store_eq_sectors (ops : List (LsmOp δ)) :
  ∀ val : ℕ → Option δ, ops.foldl LsmOp.store val = (ops.filterMap LsmOp.sector).foldl
    (fun (val : ℕ → Option δ) x => Function.update val x.1 (some x.2)) val
  := by
  induction ops with
  | nil =>
      intro val
      rfl
  | cons op ops ih =>
      intro val
      rw [List.foldl_cons, ih]
      cases op with
      | write lba d => rfl
      | flush => rfl
      | compact first second => rfl
      | force pos => rfl
      | finish => rfl
      | cleanLastLevel pos => rfl

theorem written_eq_inserted {cs : List (Insertion δ)} {ops : List (LsmOp δ)}
    (h : ops.filterMap LsmOp.sector = cs.map Insertion.sector) :
  written ops = inserted cs
  := by
  rw [written, foldl_store_eq_sectors, h, List.foldl_map]
  rfl

/-- The calls from a tree that waits for writes: as long as they succeed, every one starts where
the steps of those before it have led. -/
theorem Shaped.insertions (cs : List (Insertion δ)) :
  ∀ {lsm : Lsmtree δ}, lsm.Shaped p → lsm.phase = .idle →
    ∃ steps : List (List (LsmOp δ)), List.Forall₂ (Insertion.Takes p) cs steps ∧
      (∀ k, Transition.run (Lsmtree.insert g) lsm (cs.take k)
        = Transition.run (Lsmtree.step g) lsm (steps.take k).flatten) ∧
      ∀ lsm', Transition.run (Lsmtree.insert g) lsm cs = .ok lsm' → lsm'.phase = .idle
  := by
  induction cs with
  | nil =>
      intro lsm _ hidle
      refine ⟨[], .nil, ?_, ?_⟩
      · intro k
        rw [List.take_nil, List.take_nil]
        rfl
      · intro lsm' hok
        cases hok
        apply hidle
  | cons c cs ih =>
      intro lsm h hidle
      obtain ⟨turns, hturns, hinsert⟩ : ∃ turns ≤ p.totalLevelNum, lsm.insert g c
          = run (Lsmtree.step g) lsm (c.steps lsm.memtable.isFull turns) := h.insert c
      obtain ⟨rest, htakes, hrun, hend⟩ : ∃ rest : List (List (LsmOp δ)),
          List.Forall₂ (Insertion.Takes p) cs rest ∧
          (∀ k, (lsm.insert g c >>= fun t => run (Lsmtree.insert g) t (cs.take k))
            = (lsm.insert g c >>= fun t => run (Lsmtree.step g) t (rest.take k).flatten)) ∧
          ∀ lsm', (lsm.insert g c >>= fun t => run (Lsmtree.insert g) t cs) = .ok lsm' →
            lsm'.phase = .idle := by
        cases hc : lsm.insert g c with
        | error e =>
            refine ⟨cs.map fun c => c.steps false 0, ?_, fun _ => rfl, fun _ hok => by cases hok⟩
            rw [List.forall₂_map_right_iff, List.forall₂_same]
            intro c _
            use false, 0, Nat.zero_le _
        | ok lsm₁ =>
            rw [hc] at hinsert
            have h₁ : lsm₁.Shaped p := run_preserves (fun l => l.Shaped p)
              (fun _ _ _ hs _ hstep => hs.step hstep) h (guarded_true _ _) hinsert.symm
            apply ih h₁ (insert_idle hc)
      refine ⟨c.steps lsm.memtable.isFull turns :: rest, ?_, ?_, hend⟩
      · apply List.Forall₂.cons _ htakes
        use lsm.memtable.isFull, turns, hturns
      · intro k
        cases k with
        | zero => rfl
        | succ k =>
            rw [List.take_succ_cons, List.take_succ_cons, List.flatten_cons, run, hrun, hinsert,
              run_append_eq]

/-- Every sequence of calls is a sequence of steps that writes the same sectors in the same order,
and after every call the tree is the one after its steps.  A call takes at most as many turns of
the loop over the levels as there are levels, so the loop ends. -/
theorem insert_refines {blank : δ} {lsm₀ : Lsmtree δ} (hinit : init g p blank = .ok lsm₀)
    (cs : List (Insertion δ)) :
  ∃ steps : List (List (LsmOp δ)), List.Forall₂ (Insertion.Takes p) cs steps ∧
    (∀ k, Transition.run (Lsmtree.insert g) lsm₀ (cs.take k)
      = Transition.run (Lsmtree.step g) lsm₀ (steps.take k).flatten) ∧
    steps.flatten.filterMap LsmOp.sector = cs.map Insertion.sector ∧
    written steps.flatten = inserted cs ∧
    ∀ lsm, Transition.run (Lsmtree.insert g) lsm₀ cs = .ok lsm → lsm.phase = .idle
  := by
  obtain ⟨hshaped, hidle⟩ := shaped_init hinit
  obtain ⟨steps, htakes, hrun, hend⟩ := hshaped.insertions cs hidle
  have hsectors : steps.flatten.filterMap LsmOp.sector = cs.map Insertion.sector :=
    filterMap_sector_flatten htakes
  use steps, htakes, hrun, hsectors, written_eq_inserted hsectors, hend

/-- The lbas are inserted one after another, each with its place in the list as data. -/
def insertions (lbas : List ℕ) : List (Insertion ℕ) :=
  lbas.zipIdx.map fun x => ⟨0, 1, [], x.1, x.2⟩

/-- Three memtables, of which two are flushed and merged. -/
def threeMemtables : List (Insertion ℕ) :=
  insertions (List.range 16 ++ (List.range 16).map (5 * ·) ++ [3, 7])

theorem insert_refines_threeMemtables :
  ∃ lsm₀ lsm, ∃ steps : List (List (LsmOp ℕ)), init tinyGeometry tinyParam 0 = .ok lsm₀ ∧
    Transition.run (Lsmtree.insert tinyGeometry) lsm₀ threeMemtables = .ok lsm ∧
    List.Forall₂ (Insertion.Takes tinyParam) threeMemtables steps ∧
    Transition.run (Lsmtree.step tinyGeometry) lsm₀ steps.flatten = .ok lsm ∧
    lsm.disk.map (·.runs.length) = [0, 1, 0] ∧
    steps.flatten.filterMap LsmOp.sector = threeMemtables.map Insertion.sector ∧
    [3, 4, 5, 35].map (written steps.flatten) = [some 32, some 4, some 17, some 23]
  := by
  have hview : (init tinyGeometry tinyParam 0).map (fun lsm₀ =>
      (Transition.run (Lsmtree.insert tinyGeometry) lsm₀ threeMemtables).map fun lsm =>
        lsm.disk.map (·.runs.length)) = .ok (.ok [0, 1, 0]) := by
    decide +kernel
  obtain ⟨lsm₀, hinit, hview⟩ := map_eq_ok hview
  obtain ⟨lsm, hrun, hlevels⟩ := map_eq_ok hview
  obtain ⟨steps, htakes, hsame, hsectors, hwritten, -⟩ := insert_refines hinit threeMemtables
  have hall := hsame threeMemtables.length
  rw [List.take_length, htakes.length_eq, List.take_length] at hall
  use lsm₀, lsm, steps, hinit, hrun, htakes, hall ▸ hrun, hlevels, hsectors
  rw [hwritten]
  decide +kernel

end Lsmtree

end AppL
