import AppL.Lsm.Liveness
import AppL.Lsm.Recording

/-!
# Runs that can be read

In every state of the tree the pages of the runs carry their lbas in their out-of-band areas, and
the mapping functions of the blocks have the lbas at their places.  What has been written is not
changed by the steps that follow, because these write to blank pieces only.
-/

namespace AppL

open Transition WriteOnce

variable {δ : Type} {g : Geometry}

namespace Run

variable {others : Set ℕ} {r : Run δ} {dev dev' : Dev δ}

/-- The place that the tree of a log gives for an lba is tagged with the lba. -/
theorem Recorded.tagged (h : r.Recorded g others dev) (hlog : r.Log g) :
  r.Tagged g dev
  := by
  intro x hx
  obtain ⟨p, hp, hlba⟩ := hlog.pair_of_mem hx
  obtain ⟨ste, hste, hpage⟩ := hlog.paged x.2 p hp
  obtain ⟨blank, hwritten⟩ : ∃ blank, ste.Written blank dev := by
    rcases List.mem_append.mp (List.mem_of_getElem? hste) with hmem | hmem
    · exact ⟨_, h.legible.written ste hmem⟩
    · rw [List.mem_singleton.mp hmem]
      exact ⟨_, h.cur⟩
  have hlt := (List.getElem?_eq_some_iff.mp hpage).1
  obtain ⟨d, -, hcell⟩ := hwritten _ ((Nat.div_mul_le_self _ _).trans_lt hlt) (.inl hlt)
  rw [hlog.convert hp, (hlog.meta ste (List.mem_of_getElem? hste)).piece _ _ hpage]
  refine (congrArg Prod.snd hcell).trans ?_
  dsimp only
  rw [Ste.lbas, List.getElem?_map, hpage]
  apply hlba

/-- `run_free` writes nothing. -/
theorem free_quiet {sc sc' : ShortcutMaster} (hl : dev.Layout g)
    (h : r.free g sc dev = .ok (sc', dev')) :
  dev.Quiet g dev'
  := by
  simp only [free, bind_eq_ok] at h
  obtain ⟨dev₁, hsums, hret⟩ := h
  cases hret
  refine Dev.quiet_of_foldlM ?_ _ hl hsums
  intro dev ste dev' hl hinv
  obtain ⟨hpool, hcell⟩ := Dev.invalidatePiecePpa_pool hinv
  apply hpool.quiet hcell hl

end Run

namespace Lsmtree

variable {lsm lsm' lsm₁ : Lsmtree δ} {p : Param}

/-- The pieces of the block that the memtable is filling. -/
def frontRest (g : Geometry) (lsm : Lsmtree δ) : Set ℕ :=
  {q | lsm.phase = .idle ∧ q ∈ lsm.memtable.stBody.blockRest g}

/-- The pieces that may still be written. -/
def blank (g : Geometry) (lsm : Lsmtree δ) : Set ℕ := lsm.frontRest g ∪ lsm.dev.free g

/-- All runs can be read, and the memtable, as long as it can be written to, has recorded what it
has written. -/
structure Legible (g : Geometry) (lsm : Lsmtree δ) : Prop where
  layout : lsm.dev.Layout g
  front : lsm.phase = .idle → lsm.memtable.Recorded g ∅ lsm.dev
  runs : ∀ r ∈ lsm.runs, r.Legible (lsm.blank g) lsm.dev
  done : ∀ r ∈ lsm.runs, r.pp = none
  types : ∀ lev ∈ lsm.disk, lev.mapType.InMemory

/-- The tree has gone on by writing to blank pieces. -/
structure Records (g : Geometry) (lsm lsm' : Lsmtree δ) : Prop where
  legible : lsm'.Legible g
  fills : FillsIn (lsm.blank g) (lsm'.blank g) lsm.dev.cell lsm'.dev.cell

theorem Legible.records (h : lsm.Legible g) :
  lsm.Records g lsm
  := ⟨h, FillsIn.refl⟩

theorem Records.trans (h : lsm.Records g lsm₁) (h' : lsm₁.Records g lsm') :
  lsm.Records g lsm'
  := ⟨h'.legible, h.fills.trans h'.fills⟩

theorem frontRest_busy (h : lsm.phase ≠ .idle) :
  lsm.frontRest g = ∅
  := by
  rw [Set.eq_empty_iff_forall_notMem]
  rintro q ⟨hidle, -⟩
  apply h hidle

theorem blank_busy (h : lsm.phase ≠ .idle) :
  lsm.blank g = lsm.dev.free g
  := by rw [blank, frontRest_busy h, Set.empty_union]

theorem blank_idle (h : lsm.phase = .idle) :
  lsm.blank g = lsm.memtable.stBody.blank g ∅ lsm.dev
  := by
  have hrest : lsm.frontRest g = lsm.memtable.stBody.blockRest g := by
    ext q
    apply and_iff_right h
  rw [blank, hrest, StArray.blank, Set.empty_union]

theorem normalMapType_inMemory {t : MapType} (hcache : p.cacheFlag = false) (h : t.InMemory) :
  (normalMapType p t).InMemory
  := by
  rw [normalMapType, if_neg]
  · apply h
  · rintro ⟨-, hflag⟩
    rw [hcache] at hflag
    cases hflag

theorem levelMapType_inMemory (p : Param) (i : ℕ) :
  (levelMapType p i).InMemory
  := by
  rw [levelMapType]
  split
  · right
    rfl
  · left
    rfl

/-- The mapping function that `run_factory` takes for a memtable. -/
theorem logMapType_inMemory (p : Param) :
  (if p.bfLevelStart = 1 then MapType.guardBf else .plrMap).InMemory
  := by
  split
  · left
    rfl
  · right
    rfl

theorem insertRun_mapType {lev lev' : Level δ} {r : Run δ} (h : lev.insertRun r = .ok lev') :
  lev'.mapType = lev.mapType
  := by
  simp only [Level.insertRun, bind_eq_ok] at h
  obtain ⟨-, -, hret⟩ := h
  cases hret
  rfl

/-- The levels of a changed tree. -/
theorem types_set {disk : List (Level δ)} {i : ℕ} {lev : Level δ}
    (h : ∀ lev ∈ disk, lev.mapType.InMemory) (hlev : lev.mapType.InMemory) :
  ∀ lev' ∈ disk.set i lev, lev'.mapType.InMemory
  := by
  intro lev' hmem
  rcases List.mem_or_eq_of_mem_set hmem with hmem | rfl
  · apply h lev' hmem
  · apply hlev

/-! ### The steps -/

theorem Legible.write {lba : ℕ} {d : δ} (h : lsm.Legible g) (hkept : lsm.Kept g p [])
    (hrange : p.range ≤ uint32Max) (hok : lsm.write g lba d = .ok lsm') :
  lsm.Records g lsm'
  := by
  simp only [Lsmtree.write, bind_eq_ok, require_eq_ok] at hok
  obtain ⟨-, ⟨hidle, -⟩, -, hlba, ⟨r, sc, dev⟩, hins, hret⟩ := hok
  cases hret
  obtain ⟨-, items, hlog⟩ := hkept.log hidle
  rw [hkept.param] at hlba
  obtain ⟨hrec, hfills⟩ := Run.insert_records hlog.ready (h.front hidle)
    (Nat.le_of_lt (Nat.lt_of_lt_of_le hlba hrange)) hins
  have hall : FillsIn (lsm.blank g) (r.stBody.blank g ∅ dev) lsm.dev.cell dev.cell :=
    (blank_idle hidle).symm ▸ hfills
  have hblank : blank g { lsm with memtable := r, sc := sc, dev := dev } = r.stBody.blank g ∅ dev :=
    blank_idle hidle
  refine ⟨⟨hrec.placed.layout, fun _ => hrec, ?_, h.done, h.types⟩, hblank.symm ▸ hall⟩
  intro r₀ hr₀
  exact hblank.symm ▸ (h.runs r₀ hr₀).fills hall

/-- A merge of some runs of the tree, whose sources are not freed yet. -/
theorem Legible.merge {srcs rest : List (Run δ)} {level idx n : ℕ} {mapType : MapType}
    {force : Bool} {sc : ShortcutMaster} {st : MergeState δ} (h : lsm.Legible g)
    (hkept : lsm.Kept g p []) (hrange : p.range ≤ uint32Max) (htype : mapType.InMemory)
    (hruns : lsm.runs.Perm (srcs ++ rest)) (hadd : lsm.sc.addRun level = .ok (idx, sc))
    (hok : runMerge g srcs (Run.factory g mapType n .runNormal idx) force sc lsm.dev = .ok st)
    (hafter : AfterMerge lsm lsm₁ st rest) (htypes : ∀ lev ∈ lsm₁.disk, lev.mapType.InMemory) :
  lsm.Records g lsm₁
  := by
  have hable := hkept.mergeable hruns hadd
  have hmem : ∀ r, r ∈ srcs ∨ r ∈ rest → r ∈ lsm.runs := fun r hr =>
    hruns.mem_iff.mpr (List.mem_append.mpr hr)
  have hapart : ∀ q ∈ lsm.frontRest g, q ∉ lsm.dev.free g := fun q hq =>
    (h.front hq.1).placed.rest q hq.2
  have hsrcs : ∀ r ∈ srcs, r.Legible (lsm.frontRest g ∪ lsm.dev.free g) lsm.dev := fun r hr =>
    h.runs r (hmem r (.inl hr))
  obtain ⟨hres, hpp, hl, hfills⟩ := hable.runMerge_records hrange htype h.layout hapart hsrcs hok
  have hsub : FillsIn (lsm.frontRest g ∪ lsm.dev.free g) (∅ ∪ lsm.dev.free g) lsm.dev.cell
      lsm.dev.cell := FillsIn.of_sub (Set.union_subset_union_left _ (Set.empty_subset _)) rfl
  have hfrees : ∀ r ∈ srcs, r.Legible (∅ ∪ lsm.dev.free g) lsm.dev := fun r hr =>
    (hsrcs r hr).fills hsub
  obtain ⟨-, -, -, hfree⟩ := hable.runMerge_records hrange htype h.layout (fun _ hq => hq.elim)
    hfrees hok
  rw [Set.empty_union, Set.empty_union] at hfree
  have hrest : lsm₁.frontRest g = lsm.frontRest g := by
    rw [frontRest, frontRest, hafter.memtable]
    simp only [hafter.phase]
  have hall : FillsIn (lsm.blank g) (lsm₁.blank g) lsm.dev.cell lsm₁.dev.cell := by
    rw [blank, blank, hrest, hafter.dev]
    apply hfills
  refine ⟨⟨hafter.dev ▸ hl, ?_, ?_, ?_, htypes⟩, hall⟩
  · intro hidle
    rw [hafter.memtable, hafter.dev]
    exact ((h.front (hafter.phase.mp hidle)).fills hl hfree).recorded
  · intro r hr
    rcases List.mem_cons.mp (hafter.runs.mem_iff.mp hr) with rfl | hr
    · rw [blank, hrest, hafter.dev]
      apply hres
    · apply (h.runs r (hmem r (.inr hr))).fills hall
  · intro r hr
    rcases List.mem_cons.mp (hafter.runs.mem_iff.mp hr) with rfl | hr
    · apply hpp
    · apply h.done r (hmem r (.inr hr))

theorem Legible.freeRun {r : Run δ} (h : lsm.Legible g) (hok : lsm.freeRun g r = .ok lsm') :
  lsm.Records g lsm'
  := by
  obtain ⟨sc, dev, hfree, rfl⟩ := freeRun_ok hok
  have hquiet := Run.free_quiet h.layout hfree
  have hall := (FillsIn.of_sub hquiet.sub hquiet.cell).union (lsm.frontRest g)
  exact ⟨⟨hquiet.layout, fun hidle => ((h.front hidle).quiet hquiet).recorded,
    fun r₀ hr₀ => (h.runs r₀ hr₀).fills hall, h.done, h.types⟩, hall⟩

theorem Legible.freeRuns {rs : List (Run δ)} :
  ∀ {lsm : Lsmtree δ}, lsm.Legible g → rs.foldlM (Lsmtree.freeRun g) lsm = .ok lsm' →
    lsm.Records g lsm'
  := by
  induction rs with
  | nil =>
      intro lsm h hok
      cases hok
      apply h.records
  | cons r rs ih =>
      intro lsm h hok
      rw [List.foldlM_cons, bind_eq_ok] at hok
      obtain ⟨lsm₁, hfst, hrest⟩ := hok
      have hfree := h.freeRun hfst
      apply hfree.trans (ih hfree.legible hrest)

theorem Records.freeRuns {rs : List (Run δ)} (h : lsm.Records g lsm₁)
    (hok : rs.foldlM (Lsmtree.freeRun g) lsm₁ = .ok lsm') :
  lsm.Records g lsm'
  := h.trans (h.legible.freeRuns hok)

theorem Legible.flush (h : lsm.Legible g) (hkept : lsm.Kept g p []) (hrange : p.range ≤ uint32Max)
    (hcache : p.cacheFlag = false) (honce : FlushesOnce g lsm .flush)
    (hok : lsm.flush g = .ok lsm') :
  lsm.Records g lsm'
  := by
  simp only [Lsmtree.flush, bind_eq_ok, require_eq_ok, orThrow_eq_ok] at hok
  obtain ⟨-, ⟨hidle, -⟩, lev, hlev, ⟨r, dev⟩, hdone, ⟨target, sc⟩, hpop, st, hmerge, lev', hins,
    hret⟩ := hok
  cases hret
  obtain ⟨idx, hadd, rfl⟩ := populateNormal_ok hpop
  rw [hkept.param] at hmerge
  obtain ⟨-, hable⟩ := hkept.insertDone hrange hidle honce hdone hadd
  obtain ⟨-, items, hlog⟩ := hkept.log hidle
  obtain ⟨⟨hrec, hwrite⟩, hnil⟩ := Run.insertDone_records hlog.ready (h.front hidle) hdone
  have hblank : r.stBody.blank g ∅ dev = ∅ ∪ dev.free g := by
    rw [StArray.blank, StArray.blockRest_nil hnil, Set.empty_union]
  rw [hblank] at hwrite
  have hlegible := hrec.legible
  rw [hblank] at hlegible
  have hlevel := h.types lev (List.mem_of_getElem? hlev)
  obtain ⟨hres, hpp, hl, hfills⟩ := hable.runMerge_records hrange
    (normalMapType_inMemory hcache hlevel) hrec.placed.layout (fun _ hq => hq.elim)
    (fun r₀ hr₀ => List.mem_singleton.mp hr₀ ▸ hlegible) hmerge
  have hruns := inserted_runs hlev hins
  have hall := hwrite.trans hfills
  rw [← blank_idle hidle, Set.empty_union] at hall
  have hbusy : ∀ {x : Lsmtree δ}, x.phase = .compacting 0 → x.dev = st.dev →
      x.blank g = st.dev.free g := by
    intro x hphase hdev
    rw [blank_busy (by simp [hphase]), hdev]
  refine ⟨⟨hl, by simp, ?_, ?_, types_set h.types (insertRun_mapType hins ▸ hlevel)⟩, ?_⟩
  · intro r₀ hr₀
    rw [hbusy rfl rfl]
    rcases List.mem_cons.mp (hruns.mem_iff.mp hr₀) with rfl | hr₀
    · rw [Set.empty_union] at hres
      apply hres
    · apply (h.runs r₀ hr₀).fills hall
  · intro r₀ hr₀
    rcases List.mem_cons.mp (hruns.mem_iff.mp hr₀) with rfl | hr₀
    · apply hpp
    · apply h.done r₀ hr₀
  · convert hall using 1
    apply hbusy rfl rfl

theorem Legible.rebuild {pos : ℕ} (h : lsm.Legible g) (hkept : lsm.Kept g p [])
    (hrange : p.range ≤ uint32Max) (hcache : p.cacheFlag = false)
    (hok : lsm.rebuild g pos = .ok lsm') :
  lsm.Records g lsm'
  := by
  simp only [Lsmtree.rebuild, bind_eq_ok, orThrow_eq_ok] at hok
  obtain ⟨lev, hlev, src, hsrc, ⟨target, sc⟩, hpop, st, hmerge, lev', hins, hfree⟩ := hok
  obtain ⟨idx, hadd, rfl⟩ := populateNormal_ok hpop
  rw [hkept.param] at hmerge
  have hlevel := h.types lev (List.mem_of_getElem? hlev)
  obtain ⟨rest, hruns, hset⟩ := runs_perm hlev hsrc
  refine Records.freeRuns ?_ hfree
  refine h.merge hkept hrange (normalMapType_inMemory hcache hlevel) hruns hadd hmerge
    ⟨rfl, rfl, Iff.rfl, rfl, rfl, rfl, ?_⟩ (types_set h.types (insertRun_mapType hins ▸ hlevel))
  have hruns' := (hset lev').append_right lsm.lost
  rw [insertRun_ok hins] at hruns'
  apply hruns'

theorem Legible.compactLevel {diskIdx first second : ℕ} {lev : Level δ} (h : lsm.Legible g)
    (hkept : lsm.Kept g p []) (hrange : p.range ≤ uint32Max) (hcache : p.cacheFlag = false)
    (hbusy : lsm.phase ≠ .idle) (hlev : lsm.disk[diskIdx]? = some lev)
    (hok : lsm.compactLevel g diskIdx first second lev = .ok lsm') :
  lsm.Records g lsm'
  := by
  simp only [Lsmtree.compactLevel, bind_eq_ok, orThrow_eq_ok] at hok
  obtain ⟨desLev, hdes, ⟨srcs, rest⟩, htarget, ⟨target, sc⟩, hpop, st, hmerge, desLev', hins,
    hfree⟩ := hok
  obtain ⟨idx, hadd, rfl⟩ := populateNormal_ok hpop
  rw [hkept.param] at hmerge
  obtain ⟨stay, hruns, hruns'⟩ := compacted_runs hlev hdes htarget (stay_perm srcs.length _) hins
  have hlevel := h.types lev (List.mem_of_getElem? hlev)
  have hdesLevel := h.types desLev (List.mem_of_getElem? hdes)
  refine Records.freeRuns ?_ hfree
  refine h.merge hkept hrange (normalMapType_inMemory hcache hdesLevel) hruns hadd hmerge
    ⟨rfl, rfl, ?_, rfl, rfl, rfl, hruns'⟩ ?_
  · use fun hidle => absurd hidle (phase_ne_idle _ _), fun hidle => absurd hidle hbusy
  · refine types_set (types_set h.types hlevel) ?_
    rw [insertRun_mapType hins]
    split
    · apply hlevel
    · apply hdesLevel

theorem Legible.compact {first second : ℕ} (h : lsm.Legible g) (hkept : lsm.Kept g p [])
    (hrange : p.range ≤ uint32Max) (hcache : p.cacheFlag = false)
    (hok : lsm.compact g first second = .ok lsm') :
  lsm.Records g lsm'
  := by
  unfold Lsmtree.compact at hok
  split at hok
  · rename_i diskIdx hphase
    have hbusy : lsm.phase ≠ .idle := by simp [hphase]
    rw [bind_eq_ok] at hok
    obtain ⟨lev, hlev, hok⟩ := hok
    split at hok
    · apply h.compactLevel hkept hrange hcache hbusy (orThrow_eq_ok.mp hlev) hok
    · cases hok
      have hblank : blank g { lsm with phase := .forcing } = lsm.blank g := by
        rw [blank_busy hbusy, blank_busy (by simp)]
      exact ⟨⟨h.layout, by simp, fun r hr => hblank.symm ▸ h.runs r hr, h.done, h.types⟩,
        hblank.symm ▸ FillsIn.refl⟩
  · cases hok

theorem Legible.finish (h : lsm.Legible g) (hok : lsm.finish g = .ok lsm') :
  lsm.Records g lsm'
  := by
  simp only [Lsmtree.finish, bind_eq_ok, require_eq_ok] at hok
  obtain ⟨-, hphase, lsm₁, hfree, ⟨memtable, sc⟩, hpop, hret⟩ := hok
  cases hret
  obtain ⟨h₁, hfills⟩ := h.freeRun hfree
  obtain ⟨sc₁, dev₁, hrun, rfl⟩ := freeRun_ok hfree
  simp only [populateLog, bind_eq_ok] at hpop
  obtain ⟨⟨idx, sc'⟩, hadd, hpop⟩ := hpop
  cases hpop
  have hbusy : lsm.phase ≠ .idle := by simp [hphase]
  have hblank : ∀ {x : Lsmtree δ}, x.phase = .idle → x.memtable.stBody.cur.page = [] →
      x.dev = dev₁ → x.blank g = dev₁.free g := by
    intro x hidle hnil hdev
    rw [blank_idle hidle, StArray.blank, StArray.blockRest_nil hnil, Set.empty_union,
      Set.empty_union, hdev]
  have hold : blank g { lsm with
      sc := sc₁
      dev := dev₁
      freed := lsm.freed ++ [(lsm.memtable.info, (List.range lsm.param.range).filter
        fun lba => lsm.sc.scMap lba = some lsm.memtable.info)] } = dev₁.free g := blank_busy hbusy
  rw [hold] at hfills
  refine ⟨⟨h₁.layout, fun _ => Run.factory_recorded (logMapType_inMemory lsm.param) h₁.layout
    (fun _ hq => hq.elim), ?_, h₁.done, h₁.types⟩, ?_⟩
  · intro r hr
    rw [hblank rfl rfl rfl, ← hold]
    apply h₁.runs r hr
  · convert hfills using 1
    apply hblank rfl rfl rfl

/-- Every step writes to blank pieces only, and keeps the runs legible. -/
theorem Legible.step {op : LsmOp δ} (h : lsm.Legible g) (hkept : lsm.Kept g p [])
    (hrange : p.range ≤ uint32Max) (hcache : p.cacheFlag = false) (honce : FlushesOnce g lsm op)
    (hok : lsm.step g op = .ok lsm') :
  lsm.Records g lsm'
  := by
  cases op with
  | write lba d => apply h.write hkept hrange hok
  | flush => apply h.flush hkept hrange hcache honce hok
  | compact first second => apply h.compact hkept hrange hcache hok
  | force pos =>
      simp only [Lsmtree.step, Lsmtree.force, bind_eq_ok] at hok
      obtain ⟨-, -, hok⟩ := hok
      apply h.rebuild hkept hrange hcache hok
  | finish => apply h.finish hok
  | cleanLastLevel pos =>
      simp only [Lsmtree.step, Lsmtree.cleanLastLevel, bind_eq_ok] at hok
      obtain ⟨-, -, hok⟩ := hok
      apply h.rebuild hkept hrange hcache hok

theorem legible_init {blank : δ} (h : init g p blank = .ok lsm) :
  lsm.Legible g
  := by
  simp only [init, populateLog, bind_eq_ok] at h
  obtain ⟨⟨memtable, sc⟩, ⟨⟨idx, sc'⟩, hadd, hpop⟩, hret⟩ := h
  cases hpop
  cases hret
  refine ⟨Dev.layout_init, fun _ => Run.factory_recorded (logMapType_inMemory p) Dev.layout_init
    (fun _ hq => hq.elim), ?_, ?_, ?_⟩
  · intro r hr
    simp [runs] at hr
  · intro r hr
    simp [runs] at hr
  · intro lev hlev
    obtain ⟨i, -, rfl⟩ := List.mem_map.mp hlev
    apply levelMapType_inMemory p i

/-- The run lemma. -/
theorem Legible.run {ops : List (LsmOp δ)} (h : lsm.Legible g) (hkept : lsm.Kept g p [])
    (hrange : p.range ≤ uint32Max) (hcache : p.cacheFlag = false)
    (honce : Guarded (Lsmtree.step g) (FlushesOnce g) lsm ops)
    (hrun : Transition.run (Lsmtree.step g) lsm ops = .ok lsm') :
  lsm.Records g lsm'
  := by
  refine (run_invariant (fun _ l => lsm.Records g l ∧ l.Kept g p []) ?_ (h := []) ⟨h.records, hkept⟩
    honce hrun).1
  rintro _ s op s' ⟨hs, hkept⟩ hguard hstep
  exact ⟨hs.trans (hs.legible.step hkept hrange hcache hguard hstep),
    hkept.step hrange hguard hstep⟩

end Lsmtree

end AppL
