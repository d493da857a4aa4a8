import AppL.Lsm.Accounts

/-!
# The books of every state

The books of the tree are kept by every step, when no block that a flush moves as a whole has an
lba twice.  Then no lba stays with a run that is freed, every run counts its lbas, and the valid
pieces are those of the runs.
-/

namespace AppL

open Transition

variable {δ : Type} {g : Geometry}

/-! ### Sound runs -/

/-- A normal run of the tree. -/
structure Run.Sound (g : Geometry) (range : ℕ) (r : Run δ) : Prop where
  type : r.type = .runNormal
  ranged : StArray.Ranged r.stBody.stes
  finished : r.Finished g
  asc : r.entries.Pairwise fun a b => a.lba < b.lba
  lt : ∀ e ∈ r.entries, e.lba < range

namespace Run.Sound

variable {range : ℕ} {r : Run δ} {rset : List (Run δ)}

theorem shown (h : r.Sound g range) :
  r.shown = (r.mergeEntries g).map (·.lba)
  := by rw [Run.shown, Run.mergeEntries, h.type]

theorem lbas_asc (h : r.Sound g range) {ste : Ste} (hste : ste ∈ r.stBody.stes) :
  ste.lbas.Pairwise (· < ·)
  := by
  have hsub : ste.entries.Sublist r.entries := by
    rw [Run.entries, List.flatMap_def]
    apply List.sublist_flatten_of_mem
    apply List.mem_map_of_mem (List.mem_append.mpr (.inl hste))
  have hasc := h.asc.sublist hsub
  rw [Ste.entries, List.pairwise_map] at hasc
  rw [Ste.lbas, List.pairwise_map]
  apply hasc

theorem lbas_nodup (h : r.Sound g range) {ste : Ste} (hste : ste ∈ r.stBody.stes) :
  ste.lbas.Nodup
  := (h.lbas_asc hste).imp Nat.ne_of_lt

/-- Sound runs can be merged. -/
theorem inputs (h : ∀ r ∈ rset, r.Sound g range) :
  MergeInputs g rset ∧ NoneTwice rset ∧ MovesOnce rset
  := by
  refine ⟨.inl fun r hr => ⟨(h r hr).type, (h r hr).ranged, (h r hr).finished⟩, ?_, ?_⟩
  · intro r hr _ ste hste
    apply (h r hr).lbas_nodup hste
  · intro i j r ste _ hr hste
    apply (h r (List.mem_of_getElem? hr)).lbas_nodup (List.mem_of_getElem? hste)

end Run.Sound

theorem Merged.sound {range idx : ℕ} {held : List ℕ} {rset : List (Run δ)}
    {sc : ShortcutMaster} {dev : Dev δ} {st : MergeState δ}
    (h : Merged g range held rset idx sc dev st) :
  st.res.Sound g range
  := ⟨h.type, h.ranged, h.finished, h.asc, h.lt⟩

/-! ### The runs of the tree -/

namespace Lsmtree

variable {lsm lsm' : Lsmtree δ} {p : Param} {waiting : List (Run δ)}

/-- The normal runs. -/
def runs (lsm : Lsmtree δ) : List (Run δ) := lsm.disk.flatMap (·.runs) ++ lsm.lost

/-- The memtable, when it has been merged and is not freed yet. -/
def merged (lsm : Lsmtree δ) : List (Run δ) := if lsm.phase = .idle then [] else [lsm.memtable]

/-- The memtable, when it can be written to. -/
def front (lsm : Lsmtree δ) : List (Run δ) := if lsm.phase = .idle then [lsm.memtable] else []

theorem live_eq :
  lsm.live = lsm.front ++ lsm.runs
  := by rw [live, front, runs, List.append_assoc]

theorem live_idle (h : lsm.phase = .idle) :
  lsm.live = lsm.memtable :: lsm.runs ∧ lsm.merged = []
  := by
  rw [live, merged, if_pos h, if_pos h, List.append_assoc]
  exact ⟨rfl, rfl⟩

theorem live_busy (h : lsm.phase ≠ .idle) :
  lsm.live = lsm.runs ∧ lsm.merged = [lsm.memtable]
  := by
  rw [live, merged, if_neg h, if_neg h]
  exact ⟨rfl, rfl⟩

/-- The pieces that the memtable does not have. -/
def others (g : Geometry) (waiting : List (Run δ)) (lsm : Lsmtree δ) : List ℕ :=
  lsm.runs.flatMap (Run.mergePieces g) ++ waiting.flatMap Run.ownSums

/-- The books of the tree, when the runs that wait are to be freed. -/
structure Kept (g : Geometry) (p : Param) (waiting : List (Run δ)) (lsm : Lsmtree δ) :
    Prop where
  param : lsm.param = p
  books : Books g p.range lsm.live (waiting ++ lsm.merged) lsm.sc lsm.dev
  runs : ∀ r ∈ lsm.runs, r.Sound g p.range
  freed : ∀ x ∈ lsm.freed, x.2 = []
  log : lsm.phase = .idle → (∀ lba ∈ lsm.memtable.shown, lba < p.range) ∧
    ∃ items, lsm.memtable.LogOpen g (others g waiting lsm) lsm.dev items

theorem Kept.of_busy (hphase : lsm.phase ≠ .idle) (hparam : lsm.param = p)
    (hbooks : Books g p.range lsm.runs (waiting ++ [lsm.memtable]) lsm.sc lsm.dev)
    (hruns : ∀ r ∈ lsm.runs, r.Sound g p.range) (hfreed : ∀ x ∈ lsm.freed, x.2 = []) :
  lsm.Kept g p waiting
  := by
  obtain ⟨hlive, hmerged⟩ := live_busy hphase
  refine ⟨hparam, ?_, hruns, hfreed, fun hidle => absurd hidle hphase⟩
  rw [hlive, hmerged]
  apply hbooks

theorem Kept.of_idle (hphase : lsm.phase = .idle) (hparam : lsm.param = p)
    (hbooks : Books g p.range (lsm.memtable :: lsm.runs) waiting lsm.sc lsm.dev)
    (hruns : ∀ r ∈ lsm.runs, r.Sound g p.range) (hfreed : ∀ x ∈ lsm.freed, x.2 = [])
    (hlt : ∀ lba ∈ lsm.memtable.shown, lba < p.range)
    (hlog : ∃ items, lsm.memtable.LogOpen g (others g waiting lsm) lsm.dev items) :
  lsm.Kept g p waiting
  := by
  obtain ⟨hlive, hmerged⟩ := live_idle hphase
  refine ⟨hparam, ?_, hruns, hfreed, fun _ => ⟨hlt, hlog⟩⟩
  rw [hlive, hmerged, List.append_nil]
  apply hbooks

/-- The books of a tree that waits for writes. -/
theorem Kept.idle (h : lsm.Kept g p waiting) (hphase : lsm.phase = .idle) :
  Books g p.range (lsm.memtable :: lsm.runs) waiting lsm.sc lsm.dev
  := by
  obtain ⟨hlive, hmerged⟩ := live_idle hphase
  have hbooks := h.books
  rw [hlive, hmerged, List.append_nil] at hbooks
  apply hbooks

theorem Kept.busy (h : lsm.Kept g p waiting) (hphase : lsm.phase ≠ .idle) :
  Books g p.range lsm.runs (waiting ++ [lsm.memtable]) lsm.sc lsm.dev
  := by
  obtain ⟨hlive, hmerged⟩ := live_busy hphase
  have hbooks := h.books
  rw [hlive, hmerged] at hbooks
  apply hbooks

/-- The pieces of a tree whose memtable can be written to. -/
theorem idle_pieces {held : List ℕ} {items : List (ℕ × δ)} {dev : Dev δ}
    (hidle : lsm.phase = .idle) (hlog : lsm.memtable.LogOpen g held dev items) :
  lsm.live.flatMap (Run.mergePieces g) ++ (waiting ++ lsm.merged).flatMap Run.ownSums
    = lsm.memtable.treePsas g ++ lsm.memtable.sums ++ others g waiting lsm
  := by
  obtain ⟨hlive, hmerged⟩ := live_idle hidle
  rw [hlive, hmerged, List.append_nil, List.flatMap_cons, Books.logOpen_mergePieces hlog,
    List.append_assoc]
  rfl

/-! ### Freeing runs -/

/-- What happens to the pieces of others does not matter to a log. -/
theorem logOpen_others {r : Run δ} {held held' : List ℕ} {dev dev' : Dev δ}
    {items : List (ℕ × δ)} (h : r.LogOpen g held dev items)
    (hholds : dev'.Holds (r.treePsas g ++ r.sums ++ held'))
    (hdata : ∀ q ∈ r.treePsas g, dev'.data q = dev.data q) :
  r.LogOpen g held' dev' items
  := by
  refine ⟨h.log, ⟨h.logs.lbas, hholds, ?_⟩, h.lt, h.aligned, h.pages, h.short, h.lba_le⟩
  intro x hx
  rw [hdata]
  · apply h.logs.data x hx
  · rw [Run.treePsas_eq]
    apply List.mem_map_of_mem hx

theorem freeRun_ok {r : Run δ} (h : lsm.freeRun g r = .ok lsm') :
  ∃ sc dev, r.free g lsm.sc lsm.dev = .ok (sc, dev) ∧ lsm' = { lsm with
    sc := sc
    dev := dev
    freed := lsm.freed ++ [(r.info, (List.range lsm.param.range).filter
      fun lba => lsm.sc.scMap lba = some r.info)] }
  := by
  simp only [freeRun, bind_eq_ok] at h
  obtain ⟨⟨sc, dev⟩, hfree, hret⟩ := h
  cases hret
  exact ⟨sc, dev, hfree, rfl⟩

/-- A run that waits owns no lba when it is freed. -/
theorem freed_nil {live : List (Run δ)} {r : Run δ} {sc : ShortcutMaster} {dev : Dev δ}
    {range n : ℕ} (h : Books g range live (r :: waiting) sc dev) :
  ((List.range n).filter fun lba => sc.scMap lba = some r.info) = []
  := by
  rw [List.filter_eq_nil_iff]
  intro lba _ howner
  apply h.unowned (by simp) lba (of_decide_eq_true howner)

theorem Kept.freeRun {r : Run δ} (h : lsm.Kept g p (r :: waiting))
    (hok : lsm.freeRun g r = .ok lsm') :
  lsm'.Kept g p waiting
  := by
  obtain ⟨sc, dev, hfree, rfl⟩ := freeRun_ok hok
  obtain ⟨hbooks, -, hdata⟩ := Books.free h.books hfree
  refine ⟨h.param, hbooks, h.runs, ?_, ?_⟩
  · intro x hx
    rcases List.mem_append.mp hx with hx | hx
    · apply h.freed x hx
    · rw [List.mem_singleton.mp hx]
      apply freed_nil h.books
  · intro hidle
    obtain ⟨hlt, items, hlog⟩ := h.log hidle
    refine ⟨hlt, items, logOpen_others hlog ?_ ?_⟩
    · have hholds := hbooks.holds
      rw [← idle_pieces hidle hlog]
      apply hholds
    · intro q _
      rw [hdata]

theorem Kept.freeRuns {rs : List (Run δ)} :
  ∀ {lsm : Lsmtree δ}, lsm.Kept g p (rs ++ waiting) →
    rs.foldlM (Lsmtree.freeRun g) lsm = .ok lsm' → lsm'.Kept g p waiting
  := by
  induction rs with
  | nil =>
      intro lsm h hok
      cases hok
      apply h
  | cons r rs ih =>
      intro lsm h hok
      rw [List.foldlM_cons, bind_eq_ok] at hok
      obtain ⟨lsm₁, hfst, hrest⟩ := hok
      apply ih (Kept.freeRun h hfst) hrest

/-! ### Merging runs -/

/-- The tree has got the run that a merge has made, and all else is as before. -/
structure AfterMerge (lsm lsm₁ : Lsmtree δ) (st : MergeState δ) (rest : List (Run δ)) :
    Prop where
  param : lsm₁.param = lsm.param
  memtable : lsm₁.memtable = lsm.memtable
  phase : lsm₁.phase = .idle ↔ lsm.phase = .idle
  freed : lsm₁.freed = lsm.freed
  sc : lsm₁.sc = st.sc
  dev : lsm₁.dev = st.dev
  runs : lsm₁.runs.Perm (st.res :: rest)

/-- The runs that are merged and all others. -/
theorem live_perm {srcs rest : List (Run δ)} (hruns : lsm.runs.Perm (srcs ++ rest)) :
  lsm.live.Perm (srcs ++ (lsm.front ++ rest))
  := by
  rw [live_eq]
  apply (hruns.append_left _).trans (List.perm_append_comm_assoc _ _ _)

/-- Runs of the tree can be merged. -/
theorem Kept.mergeable {srcs rest : List (Run δ)} {level idx : ℕ} {sc : ShortcutMaster}
    (h : lsm.Kept g p waiting) (hruns : lsm.runs.Perm (srcs ++ rest))
    (hadd : lsm.sc.addRun level = .ok (idx, sc)) :
  Mergeable g p.range ((lsm.front ++ rest).flatMap (Run.mergePieces g) ++
    (waiting ++ lsm.merged).flatMap Run.ownSums) srcs idx sc lsm.dev
  := by
  have hsound : ∀ r ∈ srcs, r.Sound g p.range := by
    intro r hr
    apply h.runs r (hruns.mem_iff.mpr (List.mem_append.mpr (.inl hr)))
  obtain ⟨hin, hnone, honce⟩ := Run.Sound.inputs hsound
  apply h.books.mergeable (live_perm hruns) hin hnone honce _ _ hadd
  · intro r hr e he
    rw [Run.mergeEntries, (hsound r hr).type] at he
    apply (hsound r hr).lt e he
  · intro r hr lba hlba
    exact (hsound r hr).shown ▸ hlba

/-- A merge of some runs of the tree, whose sources are not freed yet. -/
theorem Kept.merge {lsm₁ : Lsmtree δ} {srcs rest : List (Run δ)} {level idx n : ℕ}
    {mapType : MapType} {force : Bool} {sc : ShortcutMaster} {st : MergeState δ}
    (h : lsm.Kept g p waiting) (hrange : p.range ≤ uint32Max)
    (hruns : lsm.runs.Perm (srcs ++ rest)) (hadd : lsm.sc.addRun level = .ok (idx, sc))
    (hok : runMerge g srcs (Run.factory g mapType n .runNormal idx) force sc lsm.dev = .ok st)
    (hafter : AfterMerge lsm lsm₁ st rest) :
  lsm₁.Kept g p (st.mms.map (·.r) ++ waiting)
  := by
  obtain ⟨hparam, hmem, hphase, hfreed, hsc, hdev, hruns₁⟩ := hafter
  have hfront : lsm₁.front = lsm.front := by simp only [front, hphase, hmem]
  have hmerged : lsm₁.merged = lsm.merged := by simp only [merged, hphase, hmem]
  have hdone := (h.mergeable hruns hadd).runMerge hrange hok
  have hbooks : Books g p.range lsm₁.live ((st.mms.map (·.r) ++ waiting) ++ lsm₁.merged)
      lsm₁.sc lsm₁.dev := by
    rw [hmerged, hsc, hdev, List.append_assoc]
    apply (h.books.merge (live_perm hruns) hadd hdone).perm _ (List.Perm.refl _)
    rw [live_eq, hfront]
    apply (List.perm_middle.symm.trans (hruns₁.symm.append_left _))
  refine ⟨hparam.trans h.param, hbooks, ?_, ?_, ?_⟩
  · intro r hr
    rcases List.mem_cons.mp (hruns₁.mem_iff.mp hr) with rfl | hr
    · apply hdone.sound
    · apply h.runs r (hruns.mem_iff.mpr (List.mem_append.mpr (.inr hr)))
  · rw [hfreed]
    apply h.freed
  · intro hidle
    have hidle₀ := hphase.mp hidle
    obtain ⟨hlt, items, hlog⟩ := h.log hidle₀
    rw [hmem]
    refine ⟨hlt, items, logOpen_others hlog ?_ ?_⟩
    · rw [← hmem, ← idle_pieces hidle (hmem.symm ▸ hlog)]
      apply hbooks.holds
    · intro q hq
      rw [hdev]
      apply hdone.data
      rw [front, if_pos hidle₀, List.flatMap_append, List.flatMap_singleton,
        Books.logOpen_mergePieces hlog]
      simp [hq]

/-- The runs of one level and those of the others. -/
theorem flatMap_set {α β : Type} {l : List α} {i : ℕ} {a : α} (f : α → List β)
    (h : l[i]? = some a) :
  ∃ rest, (l.flatMap f).Perm (f a ++ rest) ∧ ∀ b, ((l.set i b).flatMap f).Perm (f b ++ rest)
  := by
  obtain ⟨l₁, l₂, rfl, -, hset⟩ := MergeState.split_at h
  have hperm : ∀ x, ((l₁ ++ x :: l₂).flatMap f).Perm (f x ++ (l₁ ++ l₂).flatMap f) := by
    intro x
    rw [List.flatMap_append, List.flatMap_cons, List.flatMap_append]
    apply List.perm_append_comm_assoc _ _ _
  use (l₁ ++ l₂).flatMap f, hperm a
  intro b
  rw [hset]
  apply hperm b

theorem insertRun_ok {lev lev' : Level δ} {r : Run δ} (h : lev.insertRun r = .ok lev') :
  lev'.runs = r :: lev.runs
  := by
  simp only [Level.insertRun, bind_eq_ok] at h
  obtain ⟨-, -, hret⟩ := h
  cases hret
  rfl

/-- The runs after a new one has been inserted into a level. -/
theorem inserted_runs {i : ℕ} {lev lev' : Level δ} {r : Run δ} (hlev : lsm.disk[i]? = some lev)
    (hins : lev.insertRun r = .ok lev') :
  ((lsm.disk.set i lev').flatMap (·.runs) ++ lsm.lost).Perm (r :: lsm.runs)
  := by
  obtain ⟨levels, hperm, hset⟩ := flatMap_set Level.runs hlev
  have hset' := (hset lev').append_right lsm.lost
  rw [insertRun_ok hins] at hset'
  apply hset'.trans ((hperm.symm.append_right lsm.lost).cons _)

theorem populateNormal_ok {sc sc' : ShortcutMaster} {mapType : MapType} {n level : ℕ}
    {target : Run δ} (h : populateNormal g p sc mapType n level = .ok (target, sc')) :
  ∃ idx, sc.addRun level = .ok (idx, sc') ∧
    target = Run.factory g (normalMapType p mapType) n .runNormal idx
  := by
  simp only [populateNormal, bind_eq_ok] at h
  obtain ⟨⟨idx, sc₁⟩, hadd, hret⟩ := h
  cases hret
  exact ⟨idx, hadd, rfl⟩

/-- The runs that are merged and those that stay. -/
theorem compactionTarget_ok {rs srcs rest : List (Run δ)} {last : Bool} {first second : ℕ}
    (h : compactionTarget rs last first second = .ok (srcs, rest)) :
  rs.Perm (srcs ++ rest)
  := by
  unfold compactionTarget at h
  split at h
  · cases h
    rw [List.append_nil]
  · split at h
    · rename_i r₁ r₂ hfirst hsecond
      split at h
      · rename_i hlt
        cases h
        obtain ⟨hi, rfl⟩ := List.getElem?_eq_some_iff.mp hfirst
        obtain ⟨hj, rfl⟩ := List.getElem?_eq_some_iff.mp hsecond
        have hlen : first < (rs.eraseIdx second).length := by
          rw [List.length_eraseIdx_of_lt hj]
          omega
        have hget : (rs.eraseIdx second)[first] = rs[first] := by
          apply List.getElem_eraseIdx_of_lt _ hlt
        refine (List.getElem_cons_eraseIdx_perm hj).symm.trans ?_
        refine List.Perm.trans ((List.getElem_cons_eraseIdx_perm hlen).symm.cons _) ?_
        rw [hget]
        apply List.Perm.swap _ _ _
      · cases h
    · cases h

/-- The run at a position of a level and the others. -/
theorem runs_perm {i pos : ℕ} {lev : Level δ} {src : Run δ} (hlev : lsm.disk[i]? = some lev)
    (hsrc : lev.runs[pos]? = some src) :
  ∃ rest, lsm.runs.Perm ([src] ++ (lev.runs.eraseIdx pos ++ rest ++ lsm.lost)) ∧
    ∀ lev' : Level δ, ((lsm.disk.set i lev').flatMap (·.runs)).Perm (lev'.runs ++ rest)
  := by
  obtain ⟨rest, hperm, hset⟩ := flatMap_set Level.runs hlev
  obtain ⟨hi, rfl⟩ := List.getElem?_eq_some_iff.mp hsrc
  have hone := (List.getElem_cons_eraseIdx_perm hi).symm
  use rest, (hperm.trans (hone.append_right _)).append_right _, hset

/-- The tree with a rebuilt run, before the old one is freed. -/
theorem Kept.rebuilt {i pos n level idx : ℕ} {lev lev' : Level δ} {src : Run δ}
    {mapType : MapType} {sc : ShortcutMaster} {st : MergeState δ} (h : lsm.Kept g p [])
    (hrange : p.range ≤ uint32Max) (hlev : lsm.disk[i]? = some lev)
    (hsrc : lev.runs[pos]? = some src) (hadd : lsm.sc.addRun level = .ok (idx, sc))
    (hmerge : runMerge g [src] (Run.factory g mapType n .runNormal idx) true sc lsm.dev = .ok st)
    (hins : Level.insertRun { lev with runs := lev.runs.eraseIdx pos } st.res = .ok lev') :
  Kept g p (st.mms.map (·.r) ++ []) { lsm with
    sc := st.sc
    dev := st.dev
    disk := lsm.disk.set i lev' }
  := by
  obtain ⟨rest, hruns, hset⟩ := runs_perm hlev hsrc
  apply h.merge hrange hruns hadd hmerge
  refine ⟨rfl, rfl, Iff.rfl, rfl, rfl, rfl, ?_⟩
  have hruns' := (hset lev').append_right lsm.lost
  rw [insertRun_ok hins] at hruns'
  apply hruns'

theorem Kept.rebuild {pos : ℕ} (h : lsm.Kept g p []) (hrange : p.range ≤ uint32Max)
    (hok : lsm.rebuild g pos = .ok lsm') :
  lsm'.Kept g p []
  := by
  simp only [Lsmtree.rebuild, bind_eq_ok, orThrow_eq_ok] at hok
  obtain ⟨lev, hlev, src, hsrc, ⟨target, sc⟩, hpop, st, hmerge, lev', hins, hfree⟩ := hok
  obtain ⟨idx, hadd, rfl⟩ := populateNormal_ok hpop
  apply Kept.freeRuns (h.rebuilt hrange hlev hsrc hadd hmerge hins) hfree

/-- The runs that a compaction does not merge, and all runs after it.  Of those that are not
merged `keep` stay in their level, and `r` is the target. -/
theorem compacted_runs {diskIdx first second : ℕ} {last : Bool} {lev desLev desLev' : Level δ}
    {srcs rest keep lost : List (Run δ)} {r : Run δ} (hlev : lsm.disk[diskIdx]? = some lev)
    (hdes : lsm.disk[if last then diskIdx else diskIdx + 1]? = some desLev)
    (htarget : compactionTarget lev.runs last first second = .ok (srcs, rest))
    (hstay : (keep ++ lost).Perm rest)
    (hins : Level.insertRun (if last then { lev with runs := keep } else desLev) r
      = .ok desLev') :
  ∃ others, lsm.runs.Perm (srcs ++ others) ∧
    (((lsm.disk.set diskIdx { lev with runs := keep }).set
      (if last then diskIdx else diskIdx + 1) desLev').flatMap (·.runs) ++
      (lost ++ lsm.lost)).Perm (r :: others)
  := by
  obtain ⟨levels, hperm, hset⟩ := flatMap_set Level.runs hlev
  obtain ⟨newLev, hnew⟩ : ∃ newLev : Level δ, newLev = { lev with runs := keep } := ⟨_, rfl⟩
  have hnewRuns : newLev.runs = keep := by rw [hnew]
  rw [← hnew] at hins ⊢
  have hset₁ := hset newLev
  rw [hnewRuns] at hset₁
  obtain ⟨d, hd, hget⟩ : ∃ d : Level δ, desLev'.runs = r :: d.runs ∧
      (lsm.disk.set diskIdx newLev)[if last then diskIdx else diskIdx + 1]? = some d := by
    refine ⟨_, insertRun_ok hins, ?_⟩
    split
    · rw [List.getElem?_set_self (List.getElem?_eq_some_iff.mp hlev).1]
    · rename_i hlast
      rw [if_neg hlast] at hdes
      rw [List.getElem?_set_ne (by omega), hdes]
  obtain ⟨levels', hperm', hset'⟩ := flatMap_set Level.runs hget
  refine ⟨rest ++ levels ++ lsm.lost, ?_, ?_⟩
  · have hsplit := (hperm.trans ((compactionTarget_ok htarget).append_right _)).append_right
      lsm.lost
    rw [List.append_assoc, List.append_assoc] at hsplit
    rw [List.append_assoc rest]
    apply hsplit
  · have hruns' := (hset' desLev').append_right (lost ++ lsm.lost)
    rw [hd] at hruns'
    refine hruns'.trans ?_
    have hmoved : (keep ++ (levels ++ (lost ++ lsm.lost))).Perm
        (keep ++ (lost ++ (levels ++ lsm.lost))) :=
      (List.perm_append_comm_assoc levels lost lsm.lost).append_left keep
    have heq := (hperm'.symm.trans hset₁).append_right (lost ++ lsm.lost)
    rw [List.append_assoc keep] at heq
    refine ((heq.trans hmoved).trans ?_).cons _
    rw [← List.append_assoc, List.append_assoc rest]
    apply hstay.append_right _

/-- The tree with the target of a compaction, before the sources are freed. -/
theorem Kept.compacted {diskIdx n level idx first second : ℕ} {last : Bool}
    {lev desLev desLev' : Level δ} {srcs rest keep lost : List (Run δ)} {mapType : MapType}
    {sc : ShortcutMaster} {st : MergeState δ} {phase : Phase} (h : lsm.Kept g p [])
    (hrange : p.range ≤ uint32Max) (hbusy : lsm.phase ≠ .idle) (hphase : phase ≠ .idle)
    (hlev : lsm.disk[diskIdx]? = some lev)
    (hdes : lsm.disk[if last then diskIdx else diskIdx + 1]? = some desLev)
    (htarget : compactionTarget lev.runs last first second = .ok (srcs, rest))
    (hadd : lsm.sc.addRun level = .ok (idx, sc))
    (hmerge : runMerge g srcs (Run.factory g mapType n .runNormal idx) false sc lsm.dev = .ok st)
    (hstay : (keep ++ lost).Perm rest)
    (hins : Level.insertRun (if last then { lev with runs := keep } else desLev) st.res
      = .ok desLev') :
  Kept g p (st.mms.map (·.r) ++ []) { lsm with
    sc := st.sc
    dev := st.dev
    lost := lost ++ lsm.lost
    disk := (lsm.disk.set diskIdx { lev with runs := keep }).set
      (if last then diskIdx else diskIdx + 1) desLev'
    phase := phase }
  := by
  obtain ⟨others, hruns, hruns'⟩ := compacted_runs hlev hdes htarget hstay hins
  apply h.merge hrange hruns hadd hmerge
  refine ⟨rfl, rfl, ?_, rfl, rfl, rfl, hruns'⟩
  use fun hidle => absurd hidle hphase, fun hidle => absurd hidle hbusy

/-- The runs that are not merged stay in their level or are lost. -/
theorem stay_perm (n : ℕ) (rest : List (Run δ)) :
  ((if n = rest.length then [] else rest) ++ (if n = rest.length then rest else [])).Perm rest
  := by
  split
  · apply List.Perm.refl _
  · rw [List.append_nil]

/-- The phase after a turn of the loop of `__compaction_another_level`. -/
theorem phase_ne_idle (last : Bool) (diskIdx : ℕ) :
  (if last then Phase.forcing else .compacting (diskIdx + 1)) ≠ .idle
  := by
  split
  · exact nofun
  · exact nofun

theorem Kept.compactLevel {diskIdx first second : ℕ} {lev : Level δ} (h : lsm.Kept g p [])
    (hrange : p.range ≤ uint32Max) (hphase : lsm.phase ≠ .idle)
    (hlev : lsm.disk[diskIdx]? = some lev)
    (hok : lsm.compactLevel g diskIdx first second lev = .ok lsm') :
  lsm'.Kept g p []
  := by
  simp only [Lsmtree.compactLevel, bind_eq_ok, orThrow_eq_ok] at hok
  obtain ⟨desLev, hdes, ⟨srcs, rest⟩, htarget, ⟨target, sc⟩, hpop, st, hmerge, desLev', hins,
    hfree⟩ := hok
  obtain ⟨idx, hadd, rfl⟩ := populateNormal_ok hpop
  apply Kept.freeRuns (h.compacted hrange hphase (phase_ne_idle _ _) hlev hdes htarget hadd hmerge
    (stay_perm _ _) hins) hfree

/-! ### The steps -/

/-- No block of the memtable that a flush may move as a whole has an lba twice. -/
def FlushesOnce (g : Geometry) (lsm : Lsmtree δ) : LsmOp δ → Prop
  | .flush => ∀ r dev, lsm.memtable.insertDone g lsm.dev = .ok (r, dev) → MovesOnce [r]
  | _ => True

theorem Kept.write {lba : ℕ} {d : δ} (h : lsm.Kept g p []) (hrange : p.range ≤ uint32Max)
    (hok : lsm.write g lba d = .ok lsm') :
  lsm'.Kept g p []
  := by
  simp only [Lsmtree.write, bind_eq_ok, require_eq_ok] at hok
  obtain ⟨-, ⟨hidle, -⟩, -, hlba, ⟨r, sc, dev⟩, hins, hret⟩ := hok
  cases hret
  obtain ⟨hlt, items, hlog⟩ := h.log hidle
  rw [h.param] at hlba
  obtain ⟨hbooks, hlog', hshown⟩ := (h.idle hidle).insert hrange hlog hlba hins
  refine Kept.of_idle hidle h.param hbooks h.runs h.freed ?_ hlog'
  intro l hl
  rcases hshown l hl with hl | rfl
  · apply hlt l hl
  · apply hlba

/-- The memtable that is written to the end can be merged. -/
theorem Kept.insertDone {r : Run δ} {dev : Dev δ} {sc : ShortcutMaster} {level idx : ℕ}
    (h : lsm.Kept g p []) (hrange : p.range ≤ uint32Max) (hidle : lsm.phase = .idle)
    (honce : FlushesOnce g lsm .flush)
    (hdone : lsm.memtable.insertDone g lsm.dev = .ok (r, dev))
    (hadd : lsm.sc.addRun level = .ok (idx, sc)) :
  Books g p.range (r :: lsm.runs) [] lsm.sc dev ∧
    Mergeable g p.range (lsm.runs.flatMap (Run.mergePieces g) ++
      ([] : List (Run δ)).flatMap Run.ownSums) [r] idx sc dev
  := by
  obtain ⟨hlt, items, hlog⟩ := h.log hidle
  obtain ⟨hbooks, hfin, hlba, hshown⟩ := (h.idle hidle).insertDone hrange hlog hlt hdone
  have hnone : NoneTwice [r] := by
    intro r' hr' htype
    rw [List.mem_singleton.mp hr', hfin.done.type] at htype
    cases htype
  exact ⟨hbooks, hbooks.mergeable (List.Perm.refl ([r] ++ lsm.runs)) (.inr ⟨r, rfl, hfin⟩) hnone
    (honce r dev hdone) (by simpa using hlba) (by simpa using hshown) hadd⟩

theorem Kept.flush (h : lsm.Kept g p []) (hrange : p.range ≤ uint32Max)
    (honce : FlushesOnce g lsm .flush) (hok : lsm.flush g = .ok lsm') :
  lsm'.Kept g p []
  := by
  simp only [Lsmtree.flush, bind_eq_ok, require_eq_ok, orThrow_eq_ok] at hok
  obtain ⟨-, ⟨hidle, -⟩, lev, hlev, ⟨r, dev⟩, hdone, ⟨target, sc⟩, hpop, st, hmerge, lev', hins,
    hret⟩ := hok
  cases hret
  obtain ⟨idx, hadd, rfl⟩ := populateNormal_ok hpop
  obtain ⟨hbooks, hable⟩ := h.insertDone hrange hidle honce hdone hadd
  have hafter := hable.runMerge hrange hmerge
  have hbooks' := hbooks.merge (List.Perm.refl ([r] ++ lsm.runs)) hadd hafter
  obtain ⟨mm, hmms⟩ : ∃ mm, st.mms = [mm] := by
    apply List.length_eq_one_iff.mp
    have hlen := congrArg List.length hafter.infos
    simpa using hlen
  obtain ⟨levels, hperm, hset⟩ := flatMap_set Level.runs hlev
  have hruns : ((lsm.disk.set 0 lev').flatMap (·.runs) ++ lsm.lost).Perm
      (st.res :: lsm.runs) := by
    have hset' := (hset lev').append_right lsm.lost
    rw [insertRun_ok hins] at hset'
    apply hset'.trans ((hperm.symm.append_right lsm.lost).cons _)
  rw [hmms] at hbooks' ⊢
  refine Kept.of_busy (by simp) h.param ?_ ?_ h.freed
  · apply hbooks'.perm hruns.symm (List.Perm.refl _)
  · intro r' hr'
    rcases List.mem_cons.mp (hruns.mem_iff.mp hr') with rfl | hr'
    · apply hafter.sound
    · apply h.runs r' hr'

theorem Kept.finish (h : lsm.Kept g p []) (hok : lsm.finish g = .ok lsm') :
  lsm'.Kept g p []
  := by
  simp only [Lsmtree.finish, bind_eq_ok, require_eq_ok] at hok
  obtain ⟨-, hphase, lsm₁, hfree, ⟨memtable, sc⟩, hpop, hret⟩ := hok
  cases hret
  simp only [populateLog, bind_eq_ok] at hpop
  obtain ⟨⟨idx, sc'⟩, hadd, hpop⟩ := hpop
  cases hpop
  obtain ⟨sc₁, dev₁, hrun, rfl⟩ := freeRun_ok hfree
  have hbusy := h.busy (by simp [hphase])
  obtain ⟨hbooks, -, -⟩ := hbusy.free hrun
  refine Kept.of_idle rfl h.param (hbooks.addLog hadd) h.runs ?_ (List.forall_mem_nil _)
    ⟨[], Run.factory_logOpen _ _ _ hbooks.holds⟩
  intro x hx
  rcases List.mem_append.mp hx with hx | hx
  · apply h.freed x hx
  · rw [List.mem_singleton.mp hx]
    apply freed_nil hbusy

theorem Kept.compact {first second : ℕ} (h : lsm.Kept g p []) (hrange : p.range ≤ uint32Max)
    (hok : lsm.compact g first second = .ok lsm') :
  lsm'.Kept g p []
  := by
  unfold Lsmtree.compact at hok
  split at hok
  · rename_i diskIdx hphase
    have hbusy : lsm.phase ≠ .idle := by simp [hphase]
    rw [bind_eq_ok] at hok
    obtain ⟨lev, hlev, hok⟩ := hok
    split at hok
    · apply h.compactLevel hrange hbusy (orThrow_eq_ok.mp hlev) hok
    · cases hok
      exact Kept.of_busy (by simp) h.param (h.busy hbusy) h.runs h.freed
  · cases hok

/-- Every step keeps the books. -/
theorem Kept.step {op : LsmOp δ} (h : lsm.Kept g p []) (hrange : p.range ≤ uint32Max)
    (honce : FlushesOnce g lsm op) (hok : lsm.step g op = .ok lsm') :
  lsm'.Kept g p []
  := by
  cases op with
  | write lba d => apply h.write hrange hok
  | flush => apply h.flush hrange honce hok
  | compact first second => apply h.compact hrange hok
  | force pos =>
      simp only [Lsmtree.step, Lsmtree.force, bind_eq_ok] at hok
      obtain ⟨-, -, hok⟩ := hok
      apply h.rebuild hrange hok
  | finish => apply h.finish hok
  | cleanLastLevel pos =>
      simp only [Lsmtree.step, Lsmtree.cleanLastLevel, bind_eq_ok] at hok
      obtain ⟨-, -, hok⟩ := hok
      apply h.rebuild hrange hok

/-- The first tree has only a memtable. -/
theorem init_ok {blank : δ} (h : init g p blank = .ok lsm) :
  lsm.phase = .idle ∧ lsm.param = p ∧ lsm.runs = [] ∧ lsm.freed = [] ∧
    lsm.dev = Dev.init g blank ∧ ∃ mapType idx,
      (ShortcutMaster.init (p.totalRunNum + p.spareRunNum)).addRun 0 = .ok (idx, lsm.sc) ∧
      lsm.memtable = Run.factory g mapType (firstEntryNum g p) .runLog idx
  := by
  simp only [init, populateLog, bind_eq_ok] at h
  obtain ⟨⟨memtable, sc⟩, ⟨⟨idx, sc'⟩, hadd, hpop⟩, hret⟩ := h
  cases hpop
  cases hret
  refine ⟨rfl, rfl, ?_, rfl, rfl, _, idx, hadd, rfl⟩
  rw [runs, List.append_nil, List.flatMap_eq_nil_iff]
  intro lev hlev
  obtain ⟨i, -, rfl⟩ := List.mem_map.mp hlev
  rfl

theorem books_init (n : ℕ) (blank : δ) :
  Books g p.range [] [] (ShortcutMaster.init n) (Dev.init g blank)
  := by
  have hbit : ∀ q, (Dev.init g blank).bit q ≠ true := by
    intro q hq
    cases hq
  have hnone : ∀ lba, (ShortcutMaster.init n).scMap lba = none := fun _ => rfl
  refine ⟨List.nodup_range, List.forall_mem_nil _, ?_, ?_, List.forall_mem_nil _,
    fun _ _ => rfl, ⟨.nil, ?_⟩, ⟨fun _ => rfl, ?_⟩⟩
  · intro lba hlba
    exact absurd (hnone lba) hlba
  · intro lba i hi
    rw [hnone] at hi
    cases hi
  · intro q
    use fun hq => absurd hq (hbit q), List.not_mem_nil.elim
  · intro s
    rw [Dev.validNum, Finset.filter_eq_empty_iff.mpr fun q _ => hbit q]
    rfl

theorem kept_init {blank : δ} (h : init g p blank = .ok lsm) :
  lsm.Kept g p []
  := by
  obtain ⟨hphase, hparam, hruns, hfreed, hdev, mapType, idx, hadd, hmem⟩ := init_ok h
  have hbooks : Books g p.range [lsm.memtable] [] lsm.sc lsm.dev := by
    rw [hmem, hdev]
    apply (books_init _ blank).addLog hadd
  refine Kept.of_idle hphase hparam (hruns ▸ hbooks) ?_ ?_ ?_ ⟨[], ?_⟩
  · rw [hruns]
    exact List.forall_mem_nil _
  · rw [hfreed]
    exact List.forall_mem_nil _
  · rw [hmem]
    exact List.forall_mem_nil _
  · rw [hmem, hdev, others, hruns]
    apply Run.factory_logOpen _ _ _ (books_init (p := p) 0 blank).holds

/-- The run lemma. -/
theorem Kept.run {ops : List (LsmOp δ)} (h : lsm.Kept g p []) (hrange : p.range ≤ uint32Max)
    (honce : Guarded (Lsmtree.step g) (FlushesOnce g) lsm ops)
    (hrun : Transition.run (Lsmtree.step g) lsm ops = .ok lsm') :
  lsm'.Kept g p []
  := by
  refine run_invariant (fun _ l => l.Kept g p []) ?_ (h := []) h honce hrun
  intro _ s op s' hs hguard hstep
  apply hs.step hrange hguard hstep

/-! ### A run without a repeated lba -/

/-- No block of a memtable that is flushed has an lba twice. -/
def blocksOnce (g : Geometry) (lsm : Lsmtree δ) : LsmOp δ → Bool
  | .flush =>
      match lsm.memtable.insertDone g lsm.dev with
      | .ok (r, _) => r.stBody.stes.all fun ste => ste.lbas.Nodup
      | .error _ => true
  | _ => true

theorem blocksOnce.flushesOnce {op : LsmOp δ} (h : blocksOnce g lsm op = true) :
  FlushesOnce g lsm op
  := by
  cases op with
  | flush =>
      intro r dev hdone i j r' ste _ hr hste
      simp only [blocksOnce, hdone, List.all_eq_true, decide_eq_true_eq] at h
      obtain rfl := List.mem_singleton.mp (List.mem_of_getElem? hr)
      apply h ste (List.mem_of_getElem? hste)
  | _ => trivial

/-- Three levels of two runs, and two spare runs. -/
def spareParam : Param := ⟨false, 16, 2, 3, 6, 2, 1, 1, 120⟩

/-- Two memtables are flushed, and their runs are merged. -/
def mergeTwo : List (LsmOp ℕ) :=
  writes [1, 2, 3, 4, 6, 7, 8, 9, 18, 19, 20, 25, 21, 22, 23, 24] ++
    [.flush, .compact 0 1, .finish] ++
    writes [1, 2, 3, 6, 7, 8, 10, 20, 22, 23, 30, 31, 32, 33, 42, 51] ++
    [.flush, .compact 0 1, .compact 0 1, .finish]

theorem mergeTwo_guarded :
  ∃ lsm₀ lsm, init tinyGeometry tinyParam 0 = .ok lsm₀ ∧
    Guarded (Lsmtree.step tinyGeometry) (FlushesOnce tinyGeometry) lsm₀ mergeTwo ∧
    Transition.run (Lsmtree.step tinyGeometry) lsm₀ mergeTwo = .ok lsm ∧
    lsm.freed.map (·.1) = [0, 3, 1, 2] ∧ lsm.live.map (·.nowEntryNum) = [0, 23]
  := by
  have hview : (init tinyGeometry tinyParam 0).map (fun lsm₀ =>
      (decide (Guarded (Lsmtree.step tinyGeometry)
          (fun lsm op => blocksOnce tinyGeometry lsm op = true) lsm₀ mergeTwo),
        (Transition.run (Lsmtree.step tinyGeometry) lsm₀ mergeTwo).map fun lsm =>
          (lsm.freed.map (·.1), lsm.live.map (·.nowEntryNum))))
      = .ok (true, .ok ([0, 3, 1, 2], [0, 23])) := by
    decide +kernel
  obtain ⟨lsm₀, hinit, hview⟩ := map_eq_ok hview
  obtain ⟨honce, hview⟩ := Prod.mk.inj hview
  obtain ⟨lsm, hrun, hview⟩ := map_eq_ok hview
  obtain ⟨hfreed, hlive⟩ := Prod.mk.inj hview
  exact ⟨lsm₀, lsm, hinit, (of_decide_eq_true honce).imp fun _ _ => blocksOnce.flushesOnce,
    hrun, hfreed, hlive⟩

/-! ### What is known of every run -/

/-- A run in which no block that a flush moves as a whole has an lba twice leaves no lba with a
run that is freed, and every owner of an lba is a run of the tree. -/
theorem freed_unowned {p : Param} {blank : δ} {lsm₀ lsm : Lsmtree δ} {ops : List (LsmOp δ)}
    (hrange : p.range ≤ uint32Max) (hinit : init g p blank = .ok lsm₀)
    (honce : Guarded (Lsmtree.step g) (FlushesOnce g) lsm₀ ops)
    (hrun : Transition.run (Lsmtree.step g) lsm₀ ops = .ok lsm) :
  (∀ x ∈ lsm.freed, x.2 = []) ∧
    ∀ lba i, lsm.sc.scMap lba = some i → ∃ r ∈ lsm.live, r.info = i
  := by
  have hkept := (kept_init hinit).run hrange honce hrun
  use hkept.freed
  intro lba i howner
  obtain ⟨r, hr, hinfo, -⟩ := hkept.books.owner lba i howner
  use r, hr, hinfo

theorem freed_unowned_mergeTwo :
  ∃ lsm₀ lsm, init tinyGeometry tinyParam 0 = .ok lsm₀ ∧
    Transition.run (Lsmtree.step tinyGeometry) lsm₀ mergeTwo = .ok lsm ∧
    lsm.freed.map (·.1) = [0, 3, 1, 2] ∧ ∀ x ∈ lsm.freed, x.2 = []
  := by
  obtain ⟨lsm₀, lsm, hinit, honce, hrun, hfreed, -⟩ := mergeTwo_guarded
  have hrange : tinyParam.range ≤ uint32Max := by decide
  use lsm₀, lsm, hinit, hrun, hfreed, (freed_unowned hrange hinit honce hrun).1

/-- The run of the first level with the lba 20 twice in a block is merged, and its target is
merged again in the last level. -/
def orphanTwice : List (LsmOp ℕ) :=
  writeTwice ++ [.compact 0 1, .compact 0 1, .finish] ++
    writes ((List.range 16).map (40 + ·)) ++ [.flush, .compact 0 1, .finish] ++
    writes ((List.range 16).map (60 + ·)) ++ [.flush, .compact 0 1, .compact 0 1, .compact 0 1]

/-- The lbas 21, 22 and 23 are still owned by the index 4 when it is given back. -/
theorem freed_owned_orphanTwice :
  ∃ lsm₀ lsm, init tinyGeometry spareParam 0 = .ok lsm₀ ∧
    Transition.run (Lsmtree.step tinyGeometry) lsm₀ orphanTwice = .ok lsm ∧
    (4, [21, 22, 23]) ∈ lsm.freed
  := by
  have hview : (init tinyGeometry spareParam 0).map (fun lsm₀ =>
      (Transition.run (Lsmtree.step tinyGeometry) lsm₀ orphanTwice).map fun lsm =>
        decide ((4, [21, 22, 23]) ∈ lsm.freed)) = .ok (.ok true) := by
    decide +kernel
  obtain ⟨lsm₀, hinit, hview⟩ := map_eq_ok hview
  obtain ⟨lsm, hrun, hview⟩ := map_eq_ok hview
  use lsm₀, lsm, hinit, hrun, of_decide_eq_true hview

/-- In such a run the entries of every run of the tree, without those that it has lost, are as
many as the lbas that it owns. -/
theorem liveNum_eq_owned {p : Param} {blank : δ} {lsm₀ lsm : Lsmtree δ}
    {ops : List (LsmOp δ)} (hrange : p.range ≤ uint32Max) (hinit : init g p blank = .ok lsm₀)
    (honce : Guarded (Lsmtree.step g) (FlushesOnce g) lsm₀ ops)
    (hrun : Transition.run (Lsmtree.step g) lsm₀ ops = .ok lsm) :
  ∀ r ∈ lsm.live, (r.nowEntryNum : ℤ) - (lsm.sc.infoSet r.info).unlinkedLbaNum
    = (lsm.sc.owned p.range r.info).card
  := by
  have hkept := (kept_init hinit).run hrange honce hrun
  intro r hr
  have hcount := hkept.books.count r hr
  rw [hcount, ShortcutMaster.total]
  omega

theorem liveNum_eq_owned_mergeTwo :
  ∃ lsm₀ lsm, init tinyGeometry tinyParam 0 = .ok lsm₀ ∧
    Transition.run (Lsmtree.step tinyGeometry) lsm₀ mergeTwo = .ok lsm ∧
    lsm.live.map (·.nowEntryNum) = [0, 23] ∧
    ∀ r ∈ lsm.live, (r.nowEntryNum : ℤ) - (lsm.sc.infoSet r.info).unlinkedLbaNum
      = (lsm.sc.owned tinyParam.range r.info).card
  := by
  obtain ⟨lsm₀, lsm, hinit, honce, hrun, -, hlive⟩ := mergeTwo_guarded
  have hrange : tinyParam.range ≤ uint32Max := by decide
  use lsm₀, lsm, hinit, hrun, hlive, liveNum_eq_owned hrange hinit honce hrun

/-- The index 4 is given to a new memtable while three lbas are mapped to it. -/
def reuseIndex : List (LsmOp ℕ) :=
  orphanTwice ++ [.finish] ++ writes ((List.range 16).map (80 + ·)) ++
    [.flush, .compact 0 1, .finish] ++ writes ((List.range 16).map (100 + ·)) ++
    [.flush, .compact 0 1, .compact 0 1, .finish]

/-- The empty memtable owns three lbas. -/
theorem liveNum_lt_owned_reuseIndex :
  ∃ lsm₀ lsm, init tinyGeometry spareParam 0 = .ok lsm₀ ∧
    Transition.run (Lsmtree.step tinyGeometry) lsm₀ reuseIndex = .ok lsm ∧
    lsm.memtable ∈ lsm.live ∧ lsm.memtable.nowEntryNum = 0 ∧
    (lsm.sc.infoSet lsm.memtable.info).unlinkedLbaNum = 0 ∧
    (lsm.sc.owned spareParam.range lsm.memtable.info).card = 3
  := by
  have hview : (init tinyGeometry spareParam 0).map (fun lsm₀ =>
      (Transition.run (Lsmtree.step tinyGeometry) lsm₀ reuseIndex).map fun lsm =>
        decide (lsm.phase = .idle ∧ lsm.memtable.nowEntryNum = 0 ∧
          (lsm.sc.infoSet lsm.memtable.info).unlinkedLbaNum = 0 ∧
          (lsm.sc.owned spareParam.range lsm.memtable.info).card = 3)) = .ok (.ok true) := by
    decide +kernel
  obtain ⟨lsm₀, hinit, hview⟩ := map_eq_ok hview
  obtain ⟨lsm, hrun, hview⟩ := map_eq_ok hview
  obtain ⟨hphase, hnum, hunlinked, howned⟩ := of_decide_eq_true hview
  refine ⟨lsm₀, lsm, hinit, hrun, ?_, hnum, hunlinked, howned⟩
  rw [(live_idle hphase).1]
  apply List.mem_cons_self

end Lsmtree

end AppL
