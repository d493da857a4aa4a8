import AppL.Lsm.Liveness
import AppL.Lsm.Freshness

/-!
# The tree as a store

What the tree is for: it maps every lba to the data that was written to it last.  The memtable and
the runs of the levels are the holders of a directory, in which the shortcut names the owners.
Every step keeps the directory current, as long as no run of the last level is rebuilt, or what is
merged into this level later has no newer copies of what a rebuilt run has, and no run in use is so
old that its recency can not be compared any more.
-/

namespace AppL

open Transition Directory

variable {δ : Type} {g : Geometry}

/-! ### The copies of a log -/

namespace Run

variable {r r' : Run δ} {dev dev' : Dev δ} {held : List ℕ} {items : List (ℕ × δ)} {lba : ℕ}

/-- The data of an lba that the tree of a log gives. -/
def treeData (g : Geometry) (r : Run δ) (dev : Dev δ) (lba : ℕ) : Option δ :=
  (r.runLogMf.lookup lba).map fun k => dev.data (r.stBody.convertGlobalOffsetToPsa g k)

/-- The data of an lba that was inserted into the log last. -/
def latest (g : Geometry) (r : Run δ) (dev : Dev δ) (lba : ℕ) : Option δ :=
  (lastData r.buffered lba).or (r.treeData g dev lba)

theorem treeData_eq (hasc : r.runLogMf.Asc)
    (hlast : ∀ x, x ∈ r.runLogMf ↔ IsLast (r.pairs.map (·.lba)) x.1 x.2)
    (hs : r.Logs g held dev items) :
  r.treeData g dev lba = lastData items lba
  := by
  rw [treeData]
  cases hl : r.runLogMf.lookup lba with
  | some k =>
      have hmem := (TreeMap.lookup_eq_some hasc).mp hl
      have hk := (hlast _).mp hmem
      rw [← hs.lbas] at hk
      apply (lastData_of_isLast hk (hs.data _ hmem)).symm
  | none =>
      symm
      apply lastData_eq_none.mpr
      rintro x hx rfl
      have hmem : x.1 ∈ r.pairs.map (·.lba) := by
        rw [← hs.lbas]
        apply List.mem_map_of_mem hx
      obtain ⟨k, hk⟩ := exists_isLast hmem
      rw [(TreeMap.lookup_eq_some hasc).mpr ((hlast (x.1, k)).mpr hk)] at hl
      cases hl

theorem latest_eq (hlog : r.LogOpen g held dev items) :
  r.latest g dev lba = lastData (items ++ r.buffered) lba
  := by rw [latest, treeData_eq hlog.log.asc hlog.log.last hlog.logs, lastData_append]

/-- A log takes the sector that is inserted, when it may take its lba. -/
theorem LogOpen.insert {sc sc' : ShortcutMaster} {d : δ} (hlog : r.LogOpen g held dev items)
    (hlba : lba ≤ uint32Max) (htrue : (sc.validityCheckAndLink r.info r.info lba).1 = true)
    (hok : r.insert g sc dev lba d = .ok (r', sc', dev')) :
  sc'.scMap = Function.update sc.scMap lba (some r.info) ∧ sc'.rank = sc.rank ∧
    r'.info = r.info ∧ (∀ q ∈ held, dev'.data q = dev.data q) ∧
    ∀ l, r'.latest g dev' l = if l = lba then some d else r.latest g dev l
  := by
  simp only [Run.insert, hlog.log.type, htrue, if_true, bind_eq_ok] at hok
  obtain ⟨-, -, ⟨r₁, dev₁⟩, hsector, hret⟩ := hok
  cases hret
  obtain ⟨items', hlog', hitems, hshape, -, hdata, -⟩ := insertSector_log hlog hlba hsector
  rcases sc.validityCheckAndLink_cases r.info r.info lba with ⟨hfalse, -⟩ | ⟨-, htakes, -⟩
  · rw [htrue] at hfalse
    cases hfalse
  · refine ⟨htakes.map, funext fun i => ShortcutMaster.rank_eq (htakes.rank i), hshape.info,
      hdata, ?_⟩
    intro l
    rw [latest_eq hlog', hitems, latest_eq hlog, lastData_append]
    by_cases hl : l = lba
    · rw [if_pos hl, hl]
      simp [lastData, firstData]
    · rw [if_neg hl]
      simp [lastData, firstData, Ne.symm hl]

/-- The copies of a log: for every lba the data that was inserted last. -/
def logShelf (g : Geometry) (r : Run δ) (dev : Dev δ) : Set (ℕ × Version ℕ δ (ℕ × ℕ)) :=
  {x | ∃ lba d, r.latest g dev lba = some d ∧ x = (r.info, ⟨lba, d, none⟩)}

/-- The copies of a log stay when the data of its pieces does. -/
theorem logShelf_congr (hasc : r.runLogMf.Asc)
    (h : ∀ q ∈ r.treePsas g, dev'.data q = dev.data q) :
  r.logShelf g dev' = r.logShelf g dev
  := by
  have htree : ∀ lba, r.treeData g dev' lba = r.treeData g dev lba := by
    intro lba
    unfold treeData
    cases hl : r.runLogMf.lookup lba with
    | none => rfl
    | some k =>
        have hmem := (TreeMap.lookup_eq_some hasc).mp hl
        rw [Option.map_some, Option.map_some, h]
        rw [treePsas_eq]
        apply List.mem_map_of_mem hmem
  unfold logShelf latest
  simp only [htree]

/-- A log that is finished has its copies at the entries of its tree. -/
theorem logShelf_insertDone (hlog : r.LogOpen g held dev items)
    (hdone : r.insertDone g dev = .ok (r', dev')) :
  entryShelf dev' r'.info (r'.mergeEntries g) = r.logShelf g dev
  := by
  obtain ⟨hlogDone, hlogs, hshape, -⟩ := insertDone_log hlog hdone
  have hdata : ∀ lba, r'.treeData g dev' lba = r.latest g dev lba := fun lba => by
    rw [treeData_eq hlogDone.asc hlogDone.last hlogs, latest_eq hlog]
  rw [mergeEntries, hlogDone.type, hshape.info]
  ext x
  constructor
  · rintro ⟨e, he, rfl⟩
    obtain ⟨y, hy, rfl⟩ := List.mem_map.mp he
    refine ⟨y.1, _, ?_, rfl⟩
    rw [← hdata, treeData, (TreeMap.lookup_eq_some hlogDone.asc).mpr hy]
    rfl
  · rintro ⟨lba, d, hd, rfl⟩
    rw [← hdata, treeData, Option.map_eq_some_iff] at hd
    obtain ⟨k, hk, rfl⟩ := hd
    exact ⟨_, List.mem_map_of_mem ((TreeMap.lookup_eq_some hlogDone.asc).mp hk), rfl⟩

/-- The data of an lba that a run has. -/
def copyOf (g : Geometry) (r : Run δ) (dev : Dev δ) (lba : ℕ) : Option δ :=
  match r.type with
  | .runLog => r.latest g dev lba
  | .runNormal => (r.entries.find? fun e => e.lba == lba).map fun e => dev.data e.psa

end Run

/-! ### The copies of the tree -/

/-- The copies of normal runs. -/
def runShelf (rs : List (Run δ)) (dev : Dev δ) : Set (ℕ × Version ℕ δ (ℕ × ℕ)) :=
  {x | ∃ r ∈ rs, x ∈ entryShelf dev r.info r.entries}

/-- The copies stay when the data of their pieces does. -/
theorem runShelf_congr {rs : List (Run δ)} {dev dev' : Dev δ}
    (h : ∀ r ∈ rs, ∀ e ∈ r.entries, dev'.data e.psa = dev.data e.psa) :
  runShelf rs dev' = runShelf rs dev
  := by
  ext x
  constructor
  · rintro ⟨r, hr, e, he, rfl⟩
    use r, hr, e, he, by rw [Entry.copy_congr (h r hr e he)]
  · rintro ⟨r, hr, e, he, rfl⟩
    use r, hr, e, he, by rw [Entry.copy_congr (h r hr e he)]

theorem runShelf_perm {rs rs' : List (Run δ)} {dev : Dev δ} (h : rs.Perm rs') :
  runShelf rs dev = runShelf rs' dev
  := by
  ext x
  simp only [runShelf, Set.mem_ofPred_eq, h.mem_iff]

theorem runShelf_append {rs rs' : List (Run δ)} {dev : Dev δ} :
  runShelf (rs ++ rs') dev = runShelf rs dev ∪ runShelf rs' dev
  := by
  ext x
  simp only [runShelf, List.mem_append, Set.mem_ofPred_eq, Set.mem_union, or_and_right,
    exists_or]

theorem runShelf_cons {r : Run δ} {rs : List (Run δ)} {dev : Dev δ} :
  runShelf (r :: rs) dev = entryShelf dev r.info r.entries ∪ runShelf rs dev
  := by
  ext x
  simp only [runShelf, List.mem_cons, Set.mem_ofPred_eq, Set.mem_union, exists_eq_or_imp]

/-- The copies of sound runs are those that they have as sources of a merge. -/
theorem mergeShelf_eq {range : ℕ} {rs : List (Run δ)} {dev : Dev δ}
    (h : ∀ r ∈ rs, r.Sound g range) :
  mergeShelf g rs dev = runShelf rs dev
  := by
  ext x
  constructor
  · rintro ⟨r, hr, hx⟩
    rw [Run.mergeEntries, (h r hr).type] at hx
    exact ⟨r, hr, hx⟩
  · rintro ⟨r, hr, hx⟩
    use r, hr
    rw [Run.mergeEntries, (h r hr).type]
    apply hx

/-- The pieces of the entries of a sound run are among those that it has. -/
theorem Run.Sound.mem_mergePieces {range : ℕ} {r : Run δ} {rs : List (Run δ)} {e : Entry}
    (h : r.Sound g range) (hr : r ∈ rs) (he : e ∈ r.entries) :
  e.psa ∈ rs.flatMap (Run.mergePieces g)
  := by
  refine List.mem_flatMap.mpr ⟨r, hr, List.mem_append.mpr (.inl ?_)⟩
  rw [Run.mergeEntries, h.type]
  apply List.mem_map_of_mem he

/-- The entry of an lba is found in a sound run. -/
theorem Run.Sound.copyOf {r : Run δ} {e : Entry} {dev : Dev δ} {range : ℕ}
    (h : r.Sound g range) (he : e ∈ r.entries) :
  r.copyOf g dev e.lba = some (dev.data e.psa)
  := by
  have hsome : (r.entries.find? fun e' => e'.lba == e.lba).isSome = true :=
    List.find?_isSome.mpr ⟨e, he, beq_self_eq_true _⟩
  obtain ⟨e', he'⟩ := Option.isSome_iff_exists.mp hsome
  have hlba : e'.lba = e.lba := by simpa using List.find?_some he'
  have hnodup : (r.entries.map (·.lba)).Nodup := by
    rw [List.Nodup, List.pairwise_map]
    apply h.asc.imp Nat.ne_of_lt
  rw [Run.copyOf, h.type]
  dsimp only
  rw [he', List.inj_on_of_nodup_map hnodup (List.mem_of_find?_eq_some he') he hlba]
  rfl

/-- A merge of some runs into one of the level `level`, which ranks above the others that have old
copies of what a source owns. -/
theorem Mergeable.current {range level idx n : ℕ} {held : List ℕ} {srcs others : List (Run δ)}
    {front : Set (ℕ × Version ℕ δ (ℕ × ℕ))} {sc sc' : ShortcutMaster} {dev : Dev δ}
    {mapType : MapType} {force : Bool} {st : MergeState δ} {val : ℕ → Option δ}
    (h : Mergeable g range held srcs idx sc' dev) (hrange : range ≤ uint32Max)
    (hadd : sc.addRun level = .ok (idx, sc'))
    (hok : AppL.runMerge g srcs (Run.factory g mapType n .runNormal idx) force sc' dev = .ok st)
    (hnodup : ((srcs ++ others).map (·.info) ++ sc.freeQ).Nodup)
    (hheld : ∀ r ∈ others, ∀ e ∈ r.entries, e.psa ∈ held)
    (hfront : ∀ x ∈ front, x.1 ∉ srcs.map (·.info) ∧ x.1 ≠ idx)
    (hcur : Current Outranks sc.scMap sc.rank
      (mergeShelf g srcs dev ∪ (front ∪ runShelf others dev)) val)
    (habove : ∀ x ∈ front ∪ runShelf others dev, ∀ s ∈ srcs, sc.scMap x.2.key = some s.info →
      (Outranks (sc.rank s.info) (sc.rank x.1) ∨
        ∃ o, x.2.orig = some o ∧ Outranks (sc.rank s.info) o) →
      Outranks (level, sc.nowRecency) (sc.rank x.1)) :
  st.sc.rank idx = (level, sc.nowRecency) ∧ (∀ i, i ≠ idx → st.sc.rank i = sc.rank i) ∧
    Current Outranks st.sc.scMap st.sc.rank (front ∪ runShelf (st.res :: others) st.dev) val ∧
    ∀ e ∈ st.res.entries, ∀ o, e.orig = some o → ∃ s ∈ srcs, o = sc.rank s.info
  := by
  obtain ⟨hself, hother⟩ := ShortcutMaster.addRun_rank hadd
  obtain ⟨hfree, hmap, -⟩ := Books.addRun_ok hadd
  have hmerged := h.runMerge hrange hok
  have hidx : ∀ r ∈ srcs ++ others, r.info ≠ idx := by
    intro r hr heq
    apply List.disjoint_of_nodup_append hnodup (List.mem_map_of_mem hr)
    rw [hfree, heq]
    apply List.mem_cons_self
  have hinfos := (List.nodup_append.mp hnodup).1
  rw [List.map_append] at hinfos
  have hapart : ∀ x ∈ front ∪ runShelf others dev, x.1 ∉ srcs.map (·.info) ∧ x.1 ≠ idx := by
    rintro x (hx | ⟨r, hr, e, -, rfl⟩)
    · apply hfront x hx
    · constructor
      · intro hin
        apply List.disjoint_of_nodup_append hinfos hin (List.mem_map_of_mem hr)
      · apply hidx r (List.mem_append.mpr (.inr hr))
  have hsrcs : ∀ s ∈ srcs, sc'.rank s.info = sc.rank s.info :=
    fun s hs => hother _ (hidx s (List.mem_append.mpr (.inl hs)))
  have hcur' : Current Outranks sc'.scMap sc'.rank
      (mergeShelf g srcs dev ∪ (front ∪ runShelf others dev)) val := by
    rw [hmap]
    apply hcur.congr_rank
    rintro x (⟨s, hs, e, -, rfl⟩ | hx)
    · apply hsrcs s hs
    · apply hother _ (hapart x hx).2
  obtain ⟨hst, hcurrent, horigs⟩ := h.runMerge_fresh hrange hok hinfos.of_append_left hcur' hapart
    (by
      intro x hx i hi howner hout
      obtain ⟨s, hs, rfl⟩ := List.mem_map.mp hi
      rw [hsrcs s hs, hother _ (hapart x hx).2] at hout
      rw [hself, hother _ (hapart x hx).2]
      apply habove x hx s hs (hmap ▸ howner) hout)
  refine ⟨?_, ?_, ?_, ?_⟩
  · rw [hst, hself]
  · intro i hi
    rw [hst, hother i hi]
  · rw [runShelf_cons, hmerged.info, hst, Set.union_left_comm, runShelf_congr fun r hr e he =>
      hmerged.data _ (hheld r hr e he)]
    apply hcurrent
  · intro e he o ho
    obtain ⟨i, hi, rfl⟩ := horigs e he o ho
    obtain ⟨s, hs, rfl⟩ := List.mem_map.mp hi
    use s, hs, hsrcs s hs

/-- The store after an operation: a write changes the data of its lba, and the others change
nothing. -/
def LsmOp.store (val : ℕ → Option δ) : LsmOp δ → ℕ → Option δ
  | .write lba d => Function.update val lba (some d)
  | _ => val

namespace Lsmtree

variable {lsm lsm' : Lsmtree δ} {p : Param} {rebuilds : Bool} {val : ℕ → Option δ}

/-- The copies of the memtable, as long as it can be written to. -/
def frontShelf (g : Geometry) (lsm : Lsmtree δ) : Set (ℕ × Version ℕ δ (ℕ × ℕ)) :=
  {x | lsm.phase = .idle ∧ x ∈ lsm.memtable.logShelf g lsm.dev}

/-- All copies of the tree. -/
def shelf (g : Geometry) (lsm : Lsmtree δ) : Set (ℕ × Version ℕ δ (ℕ × ℕ)) :=
  lsm.frontShelf g ∪ runShelf lsm.runs lsm.dev

/-- The data of an lba that its owner has. -/
def value (g : Geometry) (lsm : Lsmtree δ) (lba : ℕ) : Option δ := do
  let i ← lsm.sc.scMap lba
  let r ← lsm.live.find? fun r => r.info == i
  r.copyOf g lsm.dev lba

/-- The level that a run is in; those that are lost were in the last one. -/
def At (p : Param) (lsm : Lsmtree δ) (i : ℕ) (r : Run δ) : Prop :=
  (∃ lev : Level δ, lsm.disk[i]? = some lev ∧ r ∈ lev.runs) ∨
    r ∈ lsm.lost ∧ i + 1 = p.totalLevelNum

/-- The level number of a run in the level `i`.  A run of the last level that was rebuilt has that
of the level above. -/
def Numbered (rebuilds : Bool) (p : Param) (i level : ℕ) : Prop :=
  level = i + 1 ∨ rebuilds = true ∧ 0 < i ∧ i + 1 = p.totalLevelNum ∧ level = i

/-- The runs have the numbers of their levels, and the memtable is above all of them. -/
structure Levels (rebuilds : Bool) (p : Param) (lsm : Lsmtree δ) : Prop where
  length : lsm.disk.length = p.totalLevelNum
  number : ∀ i r, lsm.At p i r → Numbered rebuilds p i (lsm.sc.rank r.info).1
  lost : ∀ r ∈ lsm.lost, 0 < p.totalLevelNum
  front : lsm.phase = .idle → (lsm.sc.rank lsm.memtable.info).1 = 0

/-- The directory of the tree is current, and a block that was moved with old data was in a level
that is not below the one it is in. -/
structure Fresh (rebuilds : Bool) (g : Geometry) (p : Param) (val : ℕ → Option δ)
    (lsm : Lsmtree δ) : Prop where
  current : Current Outranks lsm.sc.scMap lsm.sc.rank (lsm.shelf g) val
  levels : lsm.Levels rebuilds p
  orig : ∀ i r, lsm.At p i r → ∀ e ∈ r.entries, ∀ o, e.orig = some o → o.1 ≤ i + 1

theorem Numbered.pos {i level : ℕ} (h : Numbered rebuilds p i level) :
  0 < level
  := by
  rcases h with rfl | ⟨-, hpos, -, rfl⟩
  · apply Nat.succ_pos i
  · apply hpos

theorem Numbered.le {i level : ℕ} (h : Numbered rebuilds p i level) :
  level ≤ i + 1
  := by
  rcases h with rfl | ⟨-, -, -, rfl⟩
  · apply Nat.le_refl
  · apply Nat.le_succ

theorem At.mem {i : ℕ} {r : Run δ} (h : lsm.At p i r) :
  r ∈ lsm.runs
  := by
  rcases h with ⟨lev, hlev, hr⟩ | ⟨hr, -⟩
  · apply List.mem_append.mpr (.inl (List.mem_flatMap.mpr ⟨lev, List.mem_of_getElem? hlev, hr⟩))
  · apply List.mem_append.mpr (.inr hr)

theorem Levels.at (h : lsm.Levels rebuilds p) {r : Run δ} (hr : r ∈ lsm.runs) :
  ∃ i, lsm.At p i r
  := by
  rcases List.mem_append.mp hr with hr | hr
  · obtain ⟨lev, hlev, hr⟩ := List.mem_flatMap.mp hr
    obtain ⟨i, hi⟩ := List.mem_iff_getElem?.mp hlev
    use i
    left
    use lev, hi, hr
  · use p.totalLevelNum - 1
    right
    use hr, Nat.succ_pred_eq_of_pos (h.lost r hr)

theorem Levels.pos (h : lsm.Levels rebuilds p) :
  ∀ r ∈ lsm.runs, 0 < (lsm.sc.rank r.info).1
  := by
  intro r hr
  obtain ⟨i, hi⟩ := h.at hr
  apply (h.number i r hi).pos

/-! ### Writing -/

theorem not_outranks_self (a : ℕ × ℕ) :
  ¬ Outranks a a
  := by
  rintro (hlt | ⟨-, hrec⟩)
  · apply Nat.lt_irrefl _ hlt
  · rw [subInt32_self] at hrec
    apply Int.lt_irrefl _ hrec

/-- The memtable ranks above all other runs. -/
theorem Levels.outranks (h : lsm.Levels rebuilds p) (hidle : lsm.phase = .idle) {r : Run δ}
    (hr : r ∈ lsm.runs) :
  Outranks (lsm.sc.rank lsm.memtable.info) (lsm.sc.rank r.info)
  := by
  left
  rw [h.front hidle]
  apply h.pos r hr

/-- No owner of an lba ranks above the memtable. -/
theorem Fresh.not_above (h : lsm.Fresh rebuilds g p val) (hidle : lsm.phase = .idle) {lba o : ℕ}
    (ho : lsm.sc.scMap lba = some o) :
  ¬ Outranks (lsm.sc.rank o) (lsm.sc.rank lsm.memtable.info)
  := by
  intro hout
  obtain ⟨c, ⟨-, lba', d, -, hx⟩ | ⟨r, hr, e, -, hx⟩, -⟩ := h.current.held lba o ho
  · cases hx
    apply not_outranks_self _ hout
  · cases hx
    have hpos := h.levels.pos r hr
    have hle := hout.level_le
    rw [h.levels.front hidle] at hle
    omega

/-- The memtable may take every lba. -/
theorem Fresh.takes (h : lsm.Fresh rebuilds g p val) (hidle : lsm.phase = .idle) (lba : ℕ) :
  (lsm.sc.validityCheckAndLink lsm.memtable.info lsm.memtable.info lba).1 = true
  := by
  rcases lsm.sc.validityCheckAndLink_cases lsm.memtable.info lsm.memtable.info lba with
    ⟨-, -, o, ho, -, hcmp⟩ | ⟨htrue, -⟩
  · exact absurd (recencyCmp_pos.mp hcmp) (h.not_above hidle ho)
  · apply htrue

theorem Fresh.write {lba : ℕ} {d : δ} (h : lsm.Fresh rebuilds g p val) (hkept : lsm.Kept g p [])
    (hrange : p.range ≤ uint32Max) (hok : lsm.write g lba d = .ok lsm') :
  lsm'.Fresh rebuilds g p (Function.update val lba (some d))
  := by
  simp only [Lsmtree.write, bind_eq_ok, require_eq_ok] at hok
  obtain ⟨-, ⟨hidle, -⟩, -, hlba, ⟨r, sc, dev⟩, hins, hret⟩ := hok
  cases hret
  obtain ⟨-, items, hlog⟩ := hkept.log hidle
  rw [hkept.param] at hlba
  obtain ⟨hmap, hrank, hinfo, hdata, hlatest⟩ := hlog.insert
    (Nat.le_of_lt (Nat.lt_of_lt_of_le hlba hrange)) (h.takes hidle lba) hins
  have hnodup : ∀ r₀ ∈ lsm.runs, r₀.info ≠ lsm.memtable.info := by
    intro r₀ hr₀ heq
    have hbooks := (hkept.idle hidle).nodup
    rw [List.append_nil, List.map_cons, List.cons_append, List.nodup_cons] at hbooks
    apply hbooks.1
    rw [← heq]
    apply List.mem_append.mpr (.inl (List.mem_map_of_mem hr₀))
  have hruns : runShelf lsm.runs dev = runShelf lsm.runs lsm.dev := by
    apply runShelf_congr
    intro r₀ hr₀ e he
    apply hdata _ (List.mem_append.mpr (.inl ((hkept.runs r₀ hr₀).mem_mergePieces hr₀ he)))
  refine ⟨?_, ?_, ?_⟩
  · change Current Outranks sc.scMap sc.rank ({x | lsm.phase = .idle ∧ x ∈ r.logShelf g dev} ∪
      runShelf lsm.runs dev) _
    rw [hmap, hrank, hruns]
    apply h.current.write
    · intro x
      constructor
      · rintro (⟨-, l, d', hl, rfl⟩ | hx)
        · rw [hlatest] at hl
          split at hl
          · rename_i heq
            cases hl
            rw [hinfo, heq]
            left
            rfl
          · rename_i hne
            rw [hinfo]
            right
            exact ⟨.inl ⟨hidle, l, d', hl, rfl⟩, fun hx => hne hx.2⟩
        · refine .inr ⟨.inr hx, ?_⟩
          obtain ⟨r₀, hr₀, e, -, rfl⟩ := hx
          exact fun hx => hnodup r₀ hr₀ hx.1
      · rintro (rfl | ⟨⟨-, l, d', hl, rfl⟩ | hx, hnot⟩)
        · refine .inl ⟨hidle, lba, d, ?_, by rw [hinfo]⟩
          rw [hlatest, if_pos rfl]
        · refine .inl ⟨hidle, l, d', ?_, by rw [hinfo]⟩
          rw [hlatest, if_neg fun heq => hnot ⟨rfl, heq⟩]
          apply hl
        · right
          apply hx
    · rintro x (⟨-, l, d', -, rfl⟩ | ⟨r₀, hr₀, e, -, rfl⟩) - hne
      · exact absurd rfl hne
      · apply h.levels.outranks hidle hr₀
  · obtain ⟨hlength, hnumber, hlost, hfront⟩ := h.levels
    refine ⟨hlength, ?_, hlost, ?_⟩
    · rw [hrank]
      apply hnumber
    · rw [hrank, hinfo]
      apply hfront
  · apply h.orig

/-! ### Merging -/

/-- The recency of a new run is newer than those of all runs in use, as `__get_recency_cmp` sees
it. -/
def Recent (lsm : Lsmtree δ) : Prop :=
  ∀ r ∈ lsm.live, 0 < subInt32 lsm.sc.nowRecency (lsm.sc.rank r.info).2

theorem addRun_fresh {sc sc' : ShortcutMaster} {level idx : ℕ} {l : List ℕ}
    (hnodup : (l ++ sc.freeQ).Nodup) (hadd : sc.addRun level = .ok (idx, sc')) :
  idx ∉ l
  := by
  obtain ⟨hfree, -⟩ := Books.addRun_ok hadd
  intro hidx
  apply List.disjoint_of_nodup_append hnodup hidx
  rw [hfree]
  apply List.mem_cons_self

/-- A run of a changed level. -/
theorem mem_runs_set {disk : List (Level δ)} {i j : ℕ} {lev lev' : Level δ} {r : Run δ}
    (h : (disk.set i lev)[j]? = some lev') (hr : r ∈ lev'.runs) :
  (j = i ∧ r ∈ lev.runs) ∨ j ≠ i ∧ ∃ lev₀, disk[j]? = some lev₀ ∧ r ∈ lev₀.runs
  := by
  rw [List.getElem?_set] at h
  split at h
  · rename_i heq
    split at h
    · cases h
      left
      use heq.symm, hr
    · cases h
  · rename_i hne
    right
    use Ne.symm hne, lev', h, hr

theorem mem_runs_of_disk {i : ℕ} {lev : Level δ} {r : Run δ} (hlev : lsm.disk[i]? = some lev)
    (hr : r ∈ lev.runs) :
  r ∈ lsm.runs
  := List.mem_append.mpr (.inl (List.mem_flatMap.mpr ⟨lev, List.mem_of_getElem? hlev, hr⟩))

/-- The tree after a merge, whose target `r` has the number of its level. -/
theorem Fresh.of_target {r : Run δ} {srcs : List (Run δ)} {level n : ℕ}
    (h : lsm.Fresh rebuilds g p val) (hidx : ∀ r₀ ∈ lsm.runs, r₀.info ≠ r.info)
    (hself : lsm'.sc.rank r.info = (level, n))
    (hother : ∀ i, i ≠ r.info → lsm'.sc.rank i = lsm.sc.rank i)
    (hcurrent : Current Outranks lsm'.sc.scMap lsm'.sc.rank (lsm'.shelf g) val)
    (horig : ∀ e ∈ r.entries, ∀ o, e.orig = some o → ∃ s ∈ srcs, o = lsm.sc.rank s.info)
    (hfront : lsm'.phase = .idle → (lsm'.sc.rank lsm'.memtable.info).1 = 0)
    (hlength : lsm'.disk.length = lsm.disk.length) (hlost : ∀ r₀ ∈ lsm'.lost, 0 < p.totalLevelNum)
    (hplace : ∀ i r₀, lsm'.At p i r₀ → lsm.At p i r₀ ∨
      r₀ = r ∧ Numbered rebuilds p i level ∧ ∀ s ∈ srcs, (lsm.sc.rank s.info).1 ≤ i + 1) :
  lsm'.Fresh rebuilds g p val
  := by
  refine ⟨hcurrent, ⟨hlength.trans h.levels.length, ?_, hlost, hfront⟩, ?_⟩
  · intro i r₀ hr₀
    rcases hplace i r₀ hr₀ with hold | ⟨rfl, hnumber, -⟩
    · rw [hother _ (hidx r₀ hold.mem)]
      apply h.levels.number i r₀ hold
    · rw [hself]
      apply hnumber
  · intro i r₀ hr₀ e he o ho
    rcases hplace i r₀ hr₀ with hold | ⟨rfl, -, hbelow⟩
    · apply h.orig i r₀ hold e he o ho
    · obtain ⟨s, hs, rfl⟩ := horig e he o ho
      apply hbelow s hs

theorem Fresh.flush (h : lsm.Fresh rebuilds g p val) (hkept : lsm.Kept g p [])
    (hrange : p.range ≤ uint32Max) (honce : FlushesOnce g lsm .flush) (hrec : lsm.Recent)
    (hok : lsm.flush g = .ok lsm') :
  lsm'.Fresh rebuilds g p val
  := by
  simp only [Lsmtree.flush, bind_eq_ok, require_eq_ok, orThrow_eq_ok] at hok
  obtain ⟨-, ⟨hidle, -⟩, lev, hlev, ⟨r, dev⟩, hdone, ⟨target, sc⟩, hpop, st, hmerge, lev', hins,
    hret⟩ := hok
  cases hret
  obtain ⟨idx, hadd, rfl⟩ := populateNormal_ok hpop
  obtain ⟨hbooks, hable⟩ := hkept.insertDone hrange hidle honce hdone hadd
  obtain ⟨-, items, hlog⟩ := hkept.log hidle
  obtain ⟨-, -, hshape, -, hdata, -⟩ := Run.insertDone_log hlog hdone
  have hlive : lsm.live = lsm.memtable :: lsm.runs := (live_idle hidle).1
  have hnodup : (([r] ++ lsm.runs).map (·.info) ++ lsm.sc.freeQ).Nodup := by
    have hnodup := hbooks.nodup
    rw [List.append_nil] at hnodup
    apply hnodup
  have hshelf : mergeShelf g [r] dev ∪ (∅ ∪ runShelf lsm.runs dev) = lsm.shelf g := by
    have hfront : mergeShelf g [r] dev = lsm.frontShelf g := by
      ext x
      simp only [mergeShelf, List.mem_singleton, exists_eq_left, Set.mem_ofPred_eq, frontShelf,
        hidle, true_and, Run.logShelf_insertDone hlog hdone]
    rw [shelf, hfront, Set.empty_union, runShelf_congr]
    intro r₀ hr₀ e he
    apply hdata _ (List.mem_append.mpr (.inl ((hkept.runs r₀ hr₀).mem_mergePieces hr₀ he)))
  have hmem : (lsm.sc.rank r.info).1 = 0 := by
    rw [hshape.info]
    apply h.levels.front hidle
  have hpieces : ∀ r₀ ∈ lsm.runs, ∀ e ∈ r₀.entries, e.psa ∈ others g [] lsm := by
    intro r₀ hr₀ e he
    apply List.mem_append.mpr (.inl ((hkept.runs r₀ hr₀).mem_mergePieces hr₀ he))
  obtain ⟨hself, hother, hcurrent, horig⟩ := hable.current hrange hadd hmerge hnodup hpieces
    (fun x hx => absurd hx (Set.notMem_empty x)) (hshelf ▸ h.current) (by
      rintro x (hx | ⟨r₀, hr₀, e, -, rfl⟩) s - - -
      · cases hx
      · apply outranks_of_le
        · apply h.levels.pos r₀ hr₀
        · apply hrec r₀ (hlive ▸ List.mem_cons_of_mem _ hr₀))
  have hinfo : st.res.info = idx := (hable.runMerge hrange hmerge).info
  have hidx : ∀ r₀ ∈ lsm.runs, r₀.info ≠ idx := by
    intro r₀ hr₀ heq
    exact addRun_fresh hnodup hadd
      (heq ▸ List.mem_map_of_mem (List.mem_append.mpr (.inr hr₀)))
  refine h.of_target (hinfo ▸ hidx) (hinfo ▸ hself) (hinfo ▸ hother) ?_ horig ?_
    List.length_set h.levels.lost ?_
  · have hruns := inserted_runs hlev hins
    change Current Outranks _ _ (_ ∪ runShelf ((lsm.disk.set 0 lev').flatMap (·.runs) ++ lsm.lost)
      st.dev) val
    rw [runShelf_perm hruns]
    refine hcurrent.drop (Set.union_subset_union_left _ ?_) ?_
    · rintro x ⟨hbusy, -⟩
      cases hbusy
    · rintro x (hx | hx) -
      · cases hx
      · right
        apply hx
  · intro hidle
    cases hidle
  · rintro i r₀ (⟨lev₁, hi, hr₀⟩ | hlost)
    · rcases mem_runs_set hi hr₀ with ⟨rfl, hr₀⟩ | ⟨-, hold⟩
      · rw [insertRun_ok hins] at hr₀
        rcases List.mem_cons.mp hr₀ with rfl | hr₀
        · refine .inr ⟨rfl, .inl rfl, ?_⟩
          intro s hs
          rw [List.mem_singleton.mp hs, hmem]
          apply Nat.zero_le
        · left
          left
          use lev, hlev, hr₀
      · left
        left
        apply hold
    · left
      right
      apply hlost

/-- `run_free` does not change what the tree stores. -/
theorem Fresh.freeRun {r : Run δ} (h : lsm.Fresh rebuilds g p val)
    (hok : lsm.freeRun g r = .ok lsm') :
  lsm'.Fresh rebuilds g p val
  := by
  obtain ⟨sc, dev, hfree, rfl⟩ := freeRun_ok hok
  simp only [Run.free, bind_eq_ok] at hfree
  obtain ⟨dev', hsums, hret⟩ := hfree
  cases hret
  have hdata : dev.data = lsm.dev.data := (Dev.clears_of_foldlM _ _ hsums).data
  have hrank : (lsm.sc.release r.info).rank = lsm.sc.rank :=
    funext fun i => lsm.sc.release_rank r.info i
  refine ⟨?_, ⟨h.levels.length, ?_, h.levels.lost, ?_⟩, h.orig⟩
  · have hlog : lsm.memtable.logShelf g dev = lsm.memtable.logShelf g lsm.dev := by
      unfold Run.logShelf Run.latest Run.treeData
      rw [hdata]
    change Current Outranks lsm.sc.scMap (lsm.sc.release r.info).rank
      ({x | lsm.phase = .idle ∧ x ∈ lsm.memtable.logShelf g dev} ∪ runShelf lsm.runs dev) val
    rw [hrank, hlog, runShelf_congr fun _ _ e _ => congrFun hdata e.psa]
    apply h.current
  · rw [hrank]
    apply h.levels.number
  · rw [hrank]
    apply h.levels.front

theorem Fresh.freeRuns {rs : List (Run δ)} :
  ∀ {lsm : Lsmtree δ}, lsm.Fresh rebuilds g p val → rs.foldlM (Lsmtree.freeRun g) lsm = .ok lsm' →
    lsm'.Fresh rebuilds g p val
  := by
  induction rs with
  | nil =>
      intro lsm h hok
      cases hok
      apply h
  | cons r rs ih =>
      intro lsm h hok
      rw [List.foldlM_cons, bind_eq_ok] at hok
      obtain ⟨lsm₁, hfst, hrest⟩ := hok
      apply ih (h.freeRun hfst) hrest

/-- All runs of a level are merged, unless it is the last one. -/
theorem compactionTarget_all {rs srcs rest : List (Run δ)} {first second : ℕ}
    (h : compactionTarget rs false first second = .ok (srcs, rest)) :
  srcs = rs ∧ rest = []
  := by
  rw [compactionTarget, if_pos (.inl rfl)] at h
  cases h
  exact ⟨rfl, rfl⟩

/-- A merge of runs of the levels does not change the memtable. -/
theorem frontShelf_merge {srcs stay : List (Run δ)} {idx : ℕ} {sc : ShortcutMaster}
    {st : MergeState δ} (hafter : AfterMerge lsm lsm' st stay) (hkept : lsm.Kept g p [])
    (hmerged : Merged g p.range ((lsm.front ++ stay).flatMap (Run.mergePieces g) ++
      ([] ++ lsm.merged).flatMap Run.ownSums) srcs idx sc lsm.dev st) :
  lsm'.frontShelf g = lsm.frontShelf g
  := by
  unfold frontShelf
  rw [hafter.memtable, hafter.dev]
  ext x
  simp only [Set.mem_ofPred_eq, hafter.phase, and_congr_right_iff]
  intro hidle
  obtain ⟨-, items, hlog⟩ := hkept.log hidle
  rw [Run.logShelf_congr hlog.log.asc]
  intro q hq
  apply hmerged.data
  rw [front, if_pos hidle, List.flatMap_append, List.flatMap_singleton,
    Books.logOpen_mergePieces hlog]
  simp [hq]

/-- The tree after a merge of some runs of its levels.  The target is not below the runs that have
copies of what a source owns. -/
theorem Fresh.merge {srcs stay : List (Run δ)} {level idx n : ℕ} {mapType : MapType}
    {force : Bool} {sc : ShortcutMaster} {st : MergeState δ} (h : lsm.Fresh rebuilds g p val)
    (hkept : lsm.Kept g p []) (hrange : p.range ≤ uint32Max) (hrec : lsm.Recent)
    (hruns : lsm.runs.Perm (srcs ++ stay)) (hadd : lsm.sc.addRun level = .ok (idx, sc))
    (hok : runMerge g srcs (Run.factory g mapType n .runNormal idx) force sc lsm.dev = .ok st)
    (hafter : AfterMerge lsm lsm' st stay)
    (hlevel : ∀ i, ∀ r ∈ stay, lsm.At p i r → ∀ e ∈ r.entries, ∀ s ∈ srcs,
      lsm.sc.scMap e.lba = some s.info → (lsm.sc.rank s.info).1 ≤ i + 1 →
      level ≤ (lsm.sc.rank r.info).1)
    (hlength : lsm'.disk.length = lsm.disk.length) (hlost : ∀ r ∈ lsm'.lost, 0 < p.totalLevelNum)
    (hplace : ∀ i r, lsm'.At p i r → lsm.At p i r ∨
      r = st.res ∧ Numbered rebuilds p i level ∧ ∀ s ∈ srcs, (lsm.sc.rank s.info).1 ≤ i + 1) :
  lsm'.Fresh rebuilds g p val
  := by
  have hable := hkept.mergeable hruns hadd
  have hmerged := hable.runMerge hrange hok
  have hmem : ∀ r, r ∈ srcs ∨ r ∈ stay → r ∈ lsm.runs := fun r hr =>
    hruns.mem_iff.mpr (List.mem_append.mpr hr)
  have hlive : ∀ r ∈ lsm.runs, r ∈ lsm.live := fun r hr => live_eq ▸ List.mem_append.mpr (.inr hr)
  have hnodup : ((lsm.front ++ (srcs ++ stay)).map (·.info) ++ lsm.sc.freeQ).Nodup := by
    have hbooks := hkept.books.nodup
    rw [live_eq, List.map_append] at hbooks
    have hsub : ((lsm.front ++ lsm.runs).map (·.info) ++ lsm.sc.freeQ).Nodup :=
      hbooks.sublist ((List.sublist_append_left _ _).append_right _)
    exact (((hruns.append_left _).map _).append_right _).nodup_iff.mp hsub
  have hfresh := addRun_fresh hnodup hadd
  have hfront : ∀ x ∈ lsm.frontShelf g, x.1 ∉ srcs.map (·.info) ∧ x.1 ≠ idx := by
    rintro x ⟨hidle, lba, d, -, rfl⟩
    rw [front, if_pos hidle] at hnodup hfresh
    constructor
    · intro hin
      rw [List.singleton_append, List.map_cons, List.cons_append, List.nodup_cons,
        List.map_append] at hnodup
      apply hnodup.1
      apply List.mem_append.mpr (.inl (List.mem_append.mpr (.inl hin)))
    · rintro rfl
      apply hfresh
      apply List.mem_cons_self
  have hshelf : mergeShelf g srcs lsm.dev ∪ (lsm.frontShelf g ∪ runShelf stay lsm.dev)
      = lsm.shelf g := by
    rw [mergeShelf_eq fun r hr => hkept.runs r (hmem r (.inl hr)), shelf, runShelf_perm hruns,
      runShelf_append, Set.union_left_comm]
  have hpieces : ∀ r ∈ stay, ∀ e ∈ r.entries,
      e.psa ∈ (lsm.front ++ stay).flatMap (Run.mergePieces g) ++
        ([] ++ lsm.merged).flatMap Run.ownSums := by
    intro r hr e he
    refine List.mem_append.mpr (.inl ?_)
    rw [List.flatMap_append]
    refine List.mem_append.mpr (.inr ?_)
    apply (hkept.runs r (hmem r (.inr hr))).mem_mergePieces hr he
  obtain ⟨hself, hother, hcurrent, horig⟩ := hable.current hrange hadd hok
    (hnodup.sublist ((List.sublist_append_right _ _).map _ |>.append_right _)) hpieces hfront
    (hshelf ▸ h.current) (by
      rintro x (⟨hidle, lba, d, -, rfl⟩ | ⟨r, hr, e, he, rfl⟩) s hs howner hout
      · have hpos := h.levels.pos s (hmem s (.inl hs))
        rcases hout with hout | ⟨o, ho, -⟩
        · have hle := hout.level_le
          rw [h.levels.front hidle] at hle
          exact absurd hpos (Nat.not_lt_of_le hle)
        · cases ho
      · obtain ⟨i, hi⟩ := h.levels.at (hmem r (.inr hr))
        apply outranks_of_le
        · apply hlevel i r hr hi e he s hs howner
          rcases hout with hout | ⟨o, ho, hout⟩
          · apply hout.level_le.trans (h.levels.number i r hi).le
          · apply hout.level_le.trans (h.orig i r hi e he o ho)
        · apply hrec r (hlive r (hmem r (.inr hr))))
  have hidx : ∀ r ∈ lsm.front ++ lsm.runs, r.info ≠ idx := by
    intro r hr heq
    exact hfresh (heq ▸ List.mem_map_of_mem ((hruns.append_left _).mem_iff.mp hr))
  refine h.of_target (hmerged.info ▸ fun r hr => hidx r (List.mem_append.mpr (.inr hr)))
    (hmerged.info ▸ hafter.sc ▸ hself) (hmerged.info ▸ hafter.sc ▸ hother) ?_ horig ?_ hlength
    hlost hplace
  · rw [shelf, runShelf_perm hafter.runs, hafter.sc, hafter.dev,
      frontShelf_merge hafter hkept hmerged]
    apply hcurrent
  · intro hidle
    have hidle₀ := hafter.phase.mp hidle
    rw [hafter.sc, hafter.memtable, hother]
    · apply h.levels.front hidle₀
    · apply hidx
      rw [front, if_pos hidle₀]
      apply List.mem_cons_self

/-- The runs that the next turn of a compaction merges into one of the last level. -/
def mergedIntoLast (lsm : Lsmtree δ) (first second : ℕ) : List (Run δ) :=
  match lsm.phase with
  | .compacting diskIdx =>
      match lsm.disk[diskIdx]? with
      | some lev =>
          if lev.isFull = true ∧ lsm.param.totalLevelNum ≤ diskIdx + 2 then
            match compactionTarget lev.runs (diskIdx == lsm.param.totalLevelNum - 1) first
                second with
            | .ok (srcs, _) => srcs
            | .error _ => []
          else
            []
      | none => []
  | _ => []

/-- A run that stays, and has the number of the level above the last one, has no copy of what a
run that is merged into the last level owns. -/
def SparesRebuilt (lsm : Lsmtree δ) (first second : ℕ) : Prop :=
  ∀ s ∈ lsm.mergedIntoLast first second, ∀ r ∈ lsm.runs,
    r.info ∉ (lsm.mergedIntoLast first second).map (·.info) →
    (lsm.sc.rank r.info).1 = lsm.param.totalLevelNum - 1 →
    ∀ e ∈ r.entries, lsm.sc.scMap e.lba ≠ some s.info

instance (lsm : Lsmtree δ) (first second : ℕ) : Decidable (lsm.SparesRebuilt first second) :=
  inferInstanceAs (Decidable (∀ s ∈ lsm.mergedIntoLast first second, ∀ r ∈ lsm.runs,
    r.info ∉ (lsm.mergedIntoLast first second).map (·.info) →
    (lsm.sc.rank r.info).1 = lsm.param.totalLevelNum - 1 →
    ∀ e ∈ r.entries, lsm.sc.scMap e.lba ≠ some s.info))

/-- The runs that a compaction merges are those of its level, or two of them in the last one. -/
theorem mergedIntoLast_eq {diskIdx first second : ℕ} {lev : Level δ} {srcs rest : List (Run δ)}
    (hphase : lsm.phase = .compacting diskIdx) (hlev : lsm.disk[diskIdx]? = some lev)
    (hfull : lev.isFull = true) (hlast : lsm.param.totalLevelNum ≤ diskIdx + 2)
    (htarget : compactionTarget lev.runs (diskIdx == lsm.param.totalLevelNum - 1) first second
      = .ok (srcs, rest)) :
  lsm.mergedIntoLast first second = srcs
  := by
  unfold mergedIntoLast
  rw [hphase]
  dsimp only
  rw [hlev]
  dsimp only
  rw [if_pos ⟨hfull, hlast⟩, htarget]

/-- The target of a compaction is not below the runs that stay and have copies of what a source
owns. -/
theorem Levels.compacted {diskIdx first second : ℕ} {last : Bool} {lev desLev : Level δ}
    {srcs rest stay : List (Run δ)} (h : lsm.Levels rebuilds p)
    (hnodup : ((srcs ++ stay).map (·.info)).Nodup) (hlev : lsm.disk[diskIdx]? = some lev)
    (hlast : last = (diskIdx == p.totalLevelNum - 1))
    (hdes : lsm.disk[if last then diskIdx else diskIdx + 1]? = some desLev)
    (htarget : compactionTarget lev.runs last first second = .ok (srcs, rest))
    (hspares : rebuilds = true → p.totalLevelNum ≤ diskIdx + 2 → ∀ s ∈ srcs, ∀ r ∈ stay,
      (lsm.sc.rank r.info).1 = p.totalLevelNum - 1 → ∀ e ∈ r.entries,
      lsm.sc.scMap e.lba ≠ some s.info) :
  ∀ i, ∀ r ∈ stay, lsm.At p i r → ∀ e ∈ r.entries, ∀ s ∈ srcs,
    lsm.sc.scMap e.lba = some s.info → (lsm.sc.rank s.info).1 ≤ i + 1 →
    (if last then diskIdx else diskIdx + 1) + 1 ≤ (lsm.sc.rank r.info).1
  := by
  intro i r hr hi e he s hs howner hle
  have hat : lsm.At p diskIdx s := by
    left
    refine ⟨lev, hlev, ?_⟩
    rw [(compactionTarget_ok htarget).mem_iff]
    apply List.mem_append.mpr (.inl hs)
  have hsrc := h.number diskIdx s hat
  have hnumber := h.number i r hi
  have hspare := fun hb htop hlevel => hspares hb htop s hs r hr hlevel e he howner
  have hlen := (List.getElem?_eq_some_iff.mp hdes).1
  rw [h.length] at hlen
  cases last with
  | true =>
      have hdisk := eq_of_beq hlast.symm
      simp only [if_true] at hlen ⊢
      by_contra hlow
      rcases hnumber with hnumber | ⟨hb, -, htop, hnumber⟩
      · rcases hsrc with hsrc | ⟨hb, -, htop, hsrc⟩
        · omega
        · apply hspare hb
          · omega
          · omega
      · apply hspare hb
        · omega
        · omega
  | false =>
      obtain ⟨rfl, -⟩ := compactionTarget_all htarget
      simp only [Bool.false_eq_true, if_false] at hlen ⊢
      have hsrc : (lsm.sc.rank s.info).1 = diskIdx + 1 := by
        rcases hsrc with hsrc | ⟨-, -, htop, -⟩
        · apply hsrc
        · omega
      have hne : i ≠ diskIdx := by
        rintro rfl
        rcases hi with ⟨lev₀, hlev₀, hr₀⟩ | ⟨-, htop⟩
        · rw [hlev] at hlev₀
          cases hlev₀
          rw [List.map_append] at hnodup
          apply List.disjoint_of_nodup_append hnodup (List.mem_map_of_mem hr₀)
            (List.mem_map_of_mem hr)
        · omega
      by_contra hlow
      rcases hnumber with hnumber | ⟨hb, -, htop, hnumber⟩
      · omega
      · apply hspare hb
        · omega
        · omega

/-- The place of a run after a compaction. -/
theorem place_compacted {diskIdx first second : ℕ} {last : Bool} {lev desLev desLev' : Level δ}
    {srcs rest : List (Run δ)} {r : Run δ} (hlen : lsm.disk.length = p.totalLevelNum)
    (hlev : lsm.disk[diskIdx]? = some lev) (hlast : last = (diskIdx == p.totalLevelNum - 1))
    (hdes : lsm.disk[if last then diskIdx else diskIdx + 1]? = some desLev)
    (htarget : compactionTarget lev.runs last first second = .ok (srcs, rest))
    (hins : Level.insertRun (if last then
        { lev with runs := if srcs.length = rest.length then [] else rest } else desLev) r
      = .ok desLev')
    (hdisk : lsm'.disk = (lsm.disk.set diskIdx
        { lev with runs := if srcs.length = rest.length then [] else rest }).set
      (if last then diskIdx else diskIdx + 1) desLev')
    (hlost : lsm'.lost = (if srcs.length = rest.length then rest else []) ++ lsm.lost) {i : ℕ}
    {r₀ : Run δ} (hr₀ : lsm'.At p i r₀) :
  lsm.At p i r₀ ∨ r₀ = r ∧ i = if last then diskIdx else diskIdx + 1
  := by
  have hrest : ∀ r₀ ∈ rest, r₀ ∈ lev.runs := fun r₀ hr₀ =>
    (compactionTarget_ok htarget).mem_iff.mpr (List.mem_append.mpr (.inr hr₀))
  have hkeep : ∀ r₀ ∈ (if srcs.length = rest.length then [] else rest), r₀ ∈ lev.runs := by
    intro r₀ hr₀
    split at hr₀
    · cases hr₀
    · apply hrest r₀ hr₀
  rcases hr₀ with ⟨lev₁, hi, hr₀⟩ | ⟨hr₀, htop⟩
  · rw [hdisk] at hi
    rcases mem_runs_set hi hr₀ with ⟨hdesIdx, hr₀⟩ | ⟨hne, lev₂, hi, hr₀⟩
    · rw [insertRun_ok hins] at hr₀
      rcases List.mem_cons.mp hr₀ with rfl | hr₀
      · right
        use rfl
      · left
        left
        split at hr₀
        · rename_i hlast
          rw [if_pos hlast] at hdesIdx
          use lev, hdesIdx ▸ hlev, hkeep r₀ hr₀
        · use desLev, hdesIdx ▸ hdes, hr₀
    · rcases mem_runs_set hi hr₀ with ⟨hi, hr₀⟩ | ⟨-, hold⟩
      · left
        left
        use lev, hi ▸ hlev, hkeep r₀ hr₀
      · left
        left
        apply hold
  · rw [hlost] at hr₀
    left
    rcases List.mem_append.mp hr₀ with hr₀ | hr₀
    · split at hr₀
      · cases last with
        | true =>
            left
            refine ⟨lev, ?_, hrest r₀ hr₀⟩
            have hlt := (List.getElem?_eq_some_iff.mp hlev).1
            rw [show i = diskIdx by have := eq_of_beq hlast.symm; omega]
            apply hlev
        | false =>
            rw [(compactionTarget_all htarget).2] at hr₀
            cases hr₀
      · cases hr₀
    · right
      use hr₀, htop

theorem Fresh.compactLevel {diskIdx first second : ℕ} {lev : Level δ}
    (h : lsm.Fresh rebuilds g p val) (hkept : lsm.Kept g p []) (hrange : p.range ≤ uint32Max)
    (hphase : lsm.phase = .compacting diskIdx) (hrec : lsm.Recent)
    (hspares : rebuilds = true → lsm.SparesRebuilt first second)
    (hlev : lsm.disk[diskIdx]? = some lev) (hfull : lev.isFull = true)
    (hok : lsm.compactLevel g diskIdx first second lev = .ok lsm') :
  lsm'.Fresh rebuilds g p val
  := by
  have hbusy : lsm.phase ≠ .idle := by simp [hphase]
  simp only [Lsmtree.compactLevel, bind_eq_ok, orThrow_eq_ok] at hok
  obtain ⟨desLev, hdes, ⟨srcs, rest⟩, htarget, ⟨target, sc⟩, hpop, st, hmerge, desLev', hins,
    hfree⟩ := hok
  obtain ⟨idx, hadd, rfl⟩ := populateNormal_ok hpop
  refine Fresh.freeRuns ?_ hfree
  obtain ⟨stay, hruns, hruns'⟩ := compacted_runs hlev hdes htarget (stay_perm srcs.length _) hins
  have hinfos : ((srcs ++ stay).map (·.info)).Nodup := by
    have hbooks := (hkept.busy hbusy).nodup
    rw [List.map_append] at hbooks
    exact (hruns.map _).nodup_iff.mp hbooks.of_append_left.of_append_left
  have hlast : (diskIdx == lsm.param.totalLevelNum - 1) = (diskIdx == p.totalLevelNum - 1) := by
    rw [hkept.param]
  have hmerged : rebuilds = true → p.totalLevelNum ≤ diskIdx + 2 → ∀ s ∈ srcs, ∀ r ∈ stay,
      (lsm.sc.rank r.info).1 = p.totalLevelNum - 1 → ∀ e ∈ r.entries,
      lsm.sc.scMap e.lba ≠ some s.info := by
    intro hb htop s hs r hr hlevel e he
    have hsame := mergedIntoLast_eq hphase hlev hfull (hkept.param ▸ htop) htarget
    apply hspares hb s (hsame ▸ hs) r (hruns.mem_iff.mpr (List.mem_append.mpr (.inr hr)))
    · rw [hsame]
      intro hin
      rw [List.map_append] at hinfos
      apply List.disjoint_of_nodup_append hinfos hin (List.mem_map_of_mem hr)
    · rw [hkept.param]
      apply hlevel
    · apply he
  have hsrcs : ∀ s ∈ srcs, (lsm.sc.rank s.info).1 ≤ diskIdx + 1 := by
    intro s hs
    refine (h.levels.number diskIdx s (.inl ⟨lev, hlev, ?_⟩)).le
    rw [(compactionTarget_ok htarget).mem_iff]
    apply List.mem_append.mpr (.inl hs)
  refine h.merge hkept hrange hrec hruns hadd hmerge
    ⟨rfl, rfl, ?_, rfl, rfl, rfl, hruns'⟩
    (h.levels.compacted hinfos hlev hlast hdes htarget hmerged) ?_ ?_ ?_
  · use fun hidle => absurd hidle (phase_ne_idle _ _), fun hidle => absurd hidle hbusy
  · rw [List.length_set, List.length_set]
  · intro r hr
    rw [← h.levels.length]
    apply Nat.zero_lt_of_lt (List.getElem?_eq_some_iff.mp hlev).1
  · intro i r hr
    rcases place_compacted h.levels.length hlev hlast hdes htarget hins rfl rfl hr with
      hold | ⟨rfl, rfl⟩
    · left
      apply hold
    · refine .inr ⟨rfl, .inl rfl, ?_⟩
      intro s hs
      apply (hsrcs s hs).trans
      split
      · apply Nat.le_refl
      · apply Nat.le_succ

theorem Fresh.compact {first second : ℕ} (h : lsm.Fresh rebuilds g p val)
    (hkept : lsm.Kept g p []) (hrange : p.range ≤ uint32Max) (hrec : lsm.Recent)
    (hspares : rebuilds = true → lsm.SparesRebuilt first second)
    (hok : lsm.compact g first second = .ok lsm') :
  lsm'.Fresh rebuilds g p val
  := by
  unfold Lsmtree.compact at hok
  split at hok
  · rename_i diskIdx hphase
    rw [bind_eq_ok] at hok
    obtain ⟨lev, hlev, hok⟩ := hok
    split at hok
    · rename_i hfull
      apply h.compactLevel hkept hrange hphase hrec hspares (orThrow_eq_ok.mp hlev) hfull hok
    · cases hok
      obtain ⟨hlength, hnumber, hlost, -⟩ := h.levels
      refine ⟨h.current.drop ?_ ?_, ⟨hlength, hnumber, hlost, nofun⟩, h.orig⟩
      · rintro x (⟨hidle, -⟩ | hx)
        · cases hidle
        · right
          apply hx
      · rintro x (⟨hidle, -⟩ | hx) -
        · rw [hphase] at hidle
          cases hidle
        · right
          apply hx
  · cases hok

/-- The rebuild of a run of the last level, which gets the number of the level above. -/
theorem Fresh.rebuild {pos : ℕ} (h : lsm.Fresh true g p val) (hkept : lsm.Kept g p [])
    (hrange : p.range ≤ uint32Max) (hrec : lsm.Recent) (hdeep : 1 < p.totalLevelNum)
    (hok : lsm.rebuild g pos = .ok lsm') :
  lsm'.Fresh true g p val
  := by
  simp only [Lsmtree.rebuild, bind_eq_ok, orThrow_eq_ok] at hok
  obtain ⟨lev, hlev, src, hsrc, ⟨target, sc⟩, hpop, st, hmerge, lev', hins, hfree⟩ := hok
  obtain ⟨idx, hadd, rfl⟩ := populateNormal_ok hpop
  refine Fresh.freeRuns ?_ hfree
  rw [hkept.param] at hlev hadd
  obtain ⟨rest, hruns, hset⟩ := runs_perm hlev hsrc
  have hruns' := (hset lev').append_right lsm.lost
  rw [insertRun_ok hins] at hruns'
  have hat : lsm.At p (p.totalLevelNum - 1) src :=
    .inl ⟨lev, hlev, List.mem_of_getElem? hsrc⟩
  refine h.merge hkept hrange hrec hruns hadd hmerge
    ⟨rfl, rfl, Iff.rfl, rfl, rfl, rfl, hkept.param ▸ hruns'⟩ ?_ List.length_set h.levels.lost ?_
  · intro i r hr hi e he s hs howner hle
    rw [List.mem_singleton.mp hs] at hle
    rcases h.levels.number _ src hat with hsrc | ⟨-, -, -, hsrc⟩
    · rcases h.levels.number i r hi with hnumber | ⟨-, -, htop, hnumber⟩
      · omega
      · omega
    · rcases h.levels.number i r hi with hnumber | ⟨-, -, htop, hnumber⟩
      · omega
      · omega
  · rintro i r (⟨lev₁, hi, hr⟩ | hlost)
    · rw [hkept.param] at hi
      rcases mem_runs_set hi hr with ⟨rfl, hr⟩ | ⟨-, hold⟩
      · rw [insertRun_ok hins] at hr
        rcases List.mem_cons.mp hr with rfl | hr
        · right
          refine ⟨rfl, .inr ⟨rfl, by omega, by omega, rfl⟩, ?_⟩
          intro s hs
          rw [List.mem_singleton.mp hs]
          apply (h.levels.number _ src hat).le
        · left
          left
          use lev, hlev, List.mem_of_mem_eraseIdx hr
      · left
        left
        apply hold
    · left
      right
      apply hlost

/-- A new memtable has no copies. -/
theorem logShelf_factory {mapType : MapType} {n idx : ℕ} {dev : Dev δ} :
  (Run.factory g mapType n .runLog idx : Run δ).logShelf g dev = ∅
  := by
  rw [Set.eq_empty_iff_forall_notMem]
  rintro x ⟨lba, d, hd, -⟩
  cases hd

theorem Fresh.finish (h : lsm.Fresh rebuilds g p val) (hkept : lsm.Kept g p [])
    (hok : lsm.finish g = .ok lsm') :
  lsm'.Fresh rebuilds g p val
  := by
  simp only [Lsmtree.finish, bind_eq_ok, require_eq_ok] at hok
  obtain ⟨-, hphase, lsm₁, hfree, ⟨memtable, sc₂⟩, hpop, hret⟩ := hok
  cases hret
  simp only [populateLog, bind_eq_ok] at hpop
  obtain ⟨⟨idx, sc⟩, hadd, hpop⟩ := hpop
  cases hpop
  have hbusy : lsm.phase ≠ .idle := by simp [hphase]
  have h₁ := h.freeRun hfree
  obtain ⟨sc₁, dev₁, hrun, rfl⟩ := freeRun_ok hfree
  obtain ⟨hbooks, -, -⟩ := (hkept.busy hbusy).free hrun
  have hnodup : (lsm.runs.map (·.info) ++ sc₁.freeQ).Nodup := by
    have hnodup := hbooks.nodup
    rw [List.append_nil] at hnodup
    apply hnodup
  obtain ⟨hself, hother⟩ := ShortcutMaster.addRun_rank hadd
  obtain ⟨-, hmap, -⟩ := Books.addRun_ok hadd
  have hrank : ∀ r ∈ lsm.runs, sc.rank r.info = sc₁.rank r.info := fun r hr =>
    hother _ fun heq => addRun_fresh hnodup hadd (heq ▸ List.mem_map_of_mem hr)
  obtain ⟨hlength, hnumber, hlost, -⟩ := h₁.levels
  have hshelf : ∀ x, x ∈ runShelf lsm.runs dev₁ → sc.rank x.1 = sc₁.rank x.1 := by
    rintro x ⟨r, hr, e, -, rfl⟩
    apply hrank r hr
  refine ⟨?_, ⟨hlength, ?_, hlost, ?_⟩, h₁.orig⟩
  · change Current Outranks sc.scMap sc.rank ({x | Phase.idle = .idle ∧
      x ∈ (Run.factory g _ _ .runLog idx : Run δ).logShelf g dev₁} ∪ runShelf lsm.runs dev₁) val
    rw [logShelf_factory, hmap]
    refine (h₁.current.drop ?_ ?_).congr_rank ?_
    · rintro x (⟨-, hx⟩ | hx)
      · cases hx
      · right
        apply hx
    · rintro x (⟨hidle, -⟩ | hx) -
      · exact absurd hidle hbusy
      · right
        apply hx
    · rintro x (⟨-, hx⟩ | hx)
      · cases hx
      · apply hshelf x hx
  · intro i r hr
    change Numbered rebuilds p i (sc.rank r.info).1
    rw [hrank r hr.mem]
    apply hnumber i r hr
  · intro _
    change (sc.rank idx).1 = 0
    rw [hself]

/-! ### Runs -/

/-- A step that keeps the tree a store: a flush moves no block with an lba twice, no run of the
last level is rebuilt, and the recencies can be compared. -/
structure Calm (g : Geometry) (lsm : Lsmtree δ) (op : LsmOp δ) : Prop where
  once : FlushesOnce g lsm op
  keeps : ∀ pos, op ≠ .force pos ∧ op ≠ .cleanLastLevel pos
  recent : lsm.Recent

/-- A step that keeps the tree a store although runs of the last level are rebuilt, if `rebuilds`
is true: a flush moves no block with an lba twice, there is a level above the last one, no run is
merged into the last level that owns an lba of which a rebuilt run has a copy, and the recencies
can be compared. -/
structure Orderly (rebuilds : Bool) (g : Geometry) (lsm : Lsmtree δ) (op : LsmOp δ) : Prop where
  once : FlushesOnce g lsm op
  deep : ∀ pos, op = .force pos ∨ op = .cleanLastLevel pos →
    rebuilds = true ∧ 1 < lsm.param.totalLevelNum
  spares : rebuilds = true → ∀ first second, op = .compact first second →
    lsm.SparesRebuilt first second
  recent : lsm.Recent

theorem Calm.orderly {op : LsmOp δ} (h : Calm g lsm op) :
  Orderly false g lsm op
  := by
  refine ⟨h.once, ?_, nofun, h.recent⟩
  rintro pos (rfl | rfl)
  · exact absurd rfl (h.keeps pos).1
  · exact absurd rfl (h.keeps pos).2

/-- The data that was written to every lba last. -/
def written (ops : List (LsmOp δ)) : ℕ → Option δ := ops.foldl LsmOp.store fun _ => none

theorem Fresh.step {op : LsmOp δ} (h : lsm.Fresh rebuilds g p val) (hkept : lsm.Kept g p [])
    (hrange : p.range ≤ uint32Max) (hguard : Orderly rebuilds g lsm op)
    (hok : lsm.step g op = .ok lsm') :
  lsm'.Fresh rebuilds g p (op.store val)
  := by
  cases op with
  | write lba d => apply h.write hkept hrange hok
  | flush => apply h.flush hkept hrange hguard.once hguard.recent hok
  | compact first second =>
      apply h.compact hkept hrange hguard.recent _ hok
      intro hb
      apply hguard.spares hb first second rfl
  | force pos =>
      simp only [Lsmtree.step, Lsmtree.force, bind_eq_ok] at hok
      obtain ⟨-, -, hok⟩ := hok
      obtain ⟨rfl, hdeep⟩ := hguard.deep pos (.inl rfl)
      apply h.rebuild hkept hrange hguard.recent (hkept.param ▸ hdeep) hok
  | finish => apply h.finish hkept hok
  | cleanLastLevel pos =>
      simp only [Lsmtree.step, Lsmtree.cleanLastLevel, bind_eq_ok] at hok
      obtain ⟨-, -, hok⟩ := hok
      obtain ⟨rfl, hdeep⟩ := hguard.deep pos (.inr rfl)
      apply h.rebuild hkept hrange hguard.recent (hkept.param ▸ hdeep) hok

/-- The first tree stores nothing. -/
theorem fresh_init {blank : δ} (h : init g p blank = .ok lsm) :
  lsm.Fresh rebuilds g p fun _ => none
  := by
  obtain ⟨hphase, -, hruns, -, -, mapType, idx, hadd, hmem⟩ := init_ok h
  have hempty : lsm.disk.length = p.totalLevelNum ∧ lsm.lost = [] := by
    simp only [init, populateLog, bind_eq_ok] at h
    obtain ⟨⟨memtable, sc⟩, -, hret⟩ := h
    cases hret
    exact ⟨by simp, rfl⟩
  obtain ⟨hself, -⟩ := ShortcutMaster.addRun_rank hadd
  obtain ⟨-, hmap, -⟩ := Books.addRun_ok hadd
  have hnone : ∀ lba, lsm.sc.scMap lba = none := by
    intro lba
    rw [hmap]
    rfl
  have hshelf : ∀ x, x ∉ lsm.shelf g := by
    rintro x (⟨-, hx⟩ | ⟨r, hr, -⟩)
    · rw [hmem, logShelf_factory] at hx
      cases hx
    · rw [hruns] at hr
      cases hr
  have hat : ∀ i r, ¬ lsm.At p i r := by
    intro i r hr
    have hin := hr.mem
    rw [hruns] at hin
    cases hin
  refine ⟨⟨?_, ?_, ?_, fun _ _ => rfl⟩, ⟨hempty.1, ?_, ?_, ?_⟩, ?_⟩
  · exact fun x hx => absurd hx (hshelf x)
  · exact fun x hx => absurd hx (hshelf x)
  · intro lba i hi
    rw [hnone] at hi
    cases hi
  · exact fun i r hr => absurd hr (hat i r)
  · rw [hempty.2]
    exact List.forall_mem_nil _
  · intro _
    rw [hmem]
    exact congrArg Prod.fst hself
  · exact fun i r hr => absurd hr (hat i r)

/-- The run lemma. -/
theorem Fresh.run {ops : List (LsmOp δ)} (h : lsm.Fresh rebuilds g p val) (hkept : lsm.Kept g p [])
    (hrange : p.range ≤ uint32Max)
    (hguard : Guarded (Lsmtree.step g) (Orderly rebuilds g) lsm ops)
    (hrun : Transition.run (Lsmtree.step g) lsm ops = .ok lsm') :
  lsm'.Fresh rebuilds g p (ops.foldl LsmOp.store val) ∧ lsm'.Kept g p []
  := by
  refine run_invariant
    (fun ops l => l.Fresh rebuilds g p (ops.foldl LsmOp.store val) ∧ l.Kept g p []) ?_
    (h := []) ⟨h, hkept⟩ hguard hrun
  intro hist s op s' hs hop hstep
  rw [List.foldl_append]
  exact ⟨hs.1.step hs.2 hrange hop hstep, hs.2.step hrange hop.once hstep⟩

/-- The run with an index is found when the indices differ. -/
theorem find_info {rs : List (Run δ)} {r : Run δ} (hnodup : (rs.map (·.info)).Nodup)
    (hr : r ∈ rs) :
  (rs.find? fun r' => r'.info == r.info) = some r
  := by
  have hsome : (rs.find? fun r' => r'.info == r.info).isSome = true :=
    List.find?_isSome.mpr ⟨r, hr, beq_self_eq_true _⟩
  obtain ⟨r', hr'⟩ := Option.isSome_iff_exists.mp hsome
  have hinfo : r'.info = r.info := by simpa using List.find?_some hr'
  rw [hr', List.inj_on_of_nodup_map hnodup (List.mem_of_find?_eq_some hr') hr hinfo]

/-- What the owner of an lba has is what the tree stores. -/
theorem Fresh.value_eq (h : lsm.Fresh rebuilds g p val) (hkept : lsm.Kept g p []) (lba : ℕ) :
  lsm.value g lba = val lba
  := by
  have hnodup : (lsm.live.map (·.info)).Nodup := by
    have hbooks := hkept.books.nodup
    rw [List.map_append, List.append_assoc] at hbooks
    apply hbooks.of_append_left
  cases ho : lsm.sc.scMap lba with
  | none => rw [h.current.none lba ho, value, ho, Option.bind_eq_bind, Option.bind_none]
  | some i =>
      rw [value, ho, Option.bind_eq_bind, Option.bind_some]
      obtain ⟨c, hc, rfl⟩ := h.current.held lba i ho
      rw [h.current.own _ hc ho]
      rcases hc with ⟨hidle, lba, d, hd, hx⟩ | ⟨r, hr, e, he, hx⟩
      · cases hx
        obtain ⟨-, items, hlog⟩ := hkept.log hidle
        rw [find_info hnodup ((live_idle hidle).1 ▸ List.mem_cons_self), Option.bind_eq_bind,
          Option.bind_some, Run.copyOf, hlog.log.type]
        apply hd
      · cases hx
        rw [find_info hnodup (live_eq ▸ List.mem_append.mpr (.inr hr)), Option.bind_eq_bind,
          Option.bind_some]
        apply (hkept.runs r hr).copyOf he

/-- An lba has no owner exactly when the tree stores nothing for it. -/
theorem Fresh.owner_eq_none_iff (h : lsm.Fresh rebuilds g p val) (lba : ℕ) :
  lsm.sc.scMap lba = none ↔ val lba = none
  := by
  constructor
  · apply h.current.none
  · intro hval
    by_contra howner
    obtain ⟨i, ho⟩ := Option.ne_none_iff_exists'.mp howner
    obtain ⟨c, hc, rfl⟩ := h.current.held lba i ho
    rw [h.current.own _ hc ho] at hval
    cases hval

/-- In a calm run the tree is a store: what the owner of an lba has is what was written to the
lba last, and an lba has no owner exactly as long as nothing was written to it. -/
theorem value_eq_written {blank : δ} {lsm₀ : Lsmtree δ} {ops : List (LsmOp δ)}
    (hrange : p.range ≤ uint32Max) (hinit : init g p blank = .ok lsm₀)
    (hcalm : Guarded (Lsmtree.step g) (Calm g) lsm₀ ops)
    (hrun : Transition.run (Lsmtree.step g) lsm₀ ops = .ok lsm) (lba : ℕ) :
  lsm.value g lba = written ops lba ∧ (lsm.sc.scMap lba = none ↔ written ops lba = none)
  := by
  obtain ⟨hfresh, hkept⟩ := (fresh_init hinit).run (kept_init hinit) hrange
    (hcalm.imp fun _ _ => Calm.orderly) hrun
  constructor
  · apply hfresh.value_eq hkept lba
  · apply hfresh.owner_eq_none_iff lba

/-- `Calm`, for a state that is at hand. -/
def calmly (g : Geometry) (lsm : Lsmtree δ) (op : LsmOp δ) : Bool :=
  blocksOnce g lsm op &&
    (match op with
      | .force _ => false
      | .cleanLastLevel _ => false
      | _ => true) &&
    lsm.live.all fun r => 0 < subInt32 lsm.sc.nowRecency (lsm.sc.rank r.info).2

theorem calmly.calm {op : LsmOp δ} (h : calmly g lsm op = true) :
  Calm g lsm op
  := by
  simp only [calmly, Bool.and_eq_true, List.all_eq_true, decide_eq_true_eq] at h
  obtain ⟨⟨honce, hkeeps⟩, hrecent⟩ := h
  refine ⟨blocksOnce.flushesOnce honce, ?_, hrecent⟩
  rintro pos
  constructor
  · rintro rfl
    cases hkeeps
  · rintro rfl
    cases hkeeps

/-- Two memtables with some lbas in common are merged, and one of the lbas is written again. -/
def rewriteSome : List (LsmOp ℕ) :=
  writes [1, 2, 3, 4, 6, 7, 8, 9, 18, 19, 20, 25, 21, 22, 23, 24] ++
    [.flush, .compact 0 1, .finish] ++
    [1, 2, 3, 6, 7, 8, 10, 20, 22, 23, 30, 31, 32, 33, 42, 51].map
      (fun lba => .write lba (lba + 100)) ++
    [.flush, .compact 0 1, .compact 0 1, .finish, .write 1 201]

theorem rewriteSome_calm :
  ∃ lsm₀ lsm, init tinyGeometry tinyParam 0 = .ok lsm₀ ∧
    Guarded (Lsmtree.step tinyGeometry) (Calm tinyGeometry) lsm₀ rewriteSome ∧
    Transition.run (Lsmtree.step tinyGeometry) lsm₀ rewriteSome = .ok lsm ∧
    lsm.live.map (·.nowEntryNum) = [1, 23] ∧
    [1, 2, 4, 5].map (written rewriteSome) = [some 201, some 102, some 4, none]
  := by
  have hview : (init tinyGeometry tinyParam 0).map (fun lsm₀ =>
      (decide (Guarded (Lsmtree.step tinyGeometry)
          (fun lsm op => calmly tinyGeometry lsm op = true) lsm₀ rewriteSome),
        (Transition.run (Lsmtree.step tinyGeometry) lsm₀ rewriteSome).map fun lsm =>
          lsm.live.map (·.nowEntryNum)))
      = .ok (true, .ok [1, 23]) := by
    decide +kernel
  obtain ⟨lsm₀, hinit, hview⟩ := map_eq_ok hview
  obtain ⟨hcalm, hview⟩ := Prod.mk.inj hview
  obtain ⟨lsm, hrun, hlive⟩ := map_eq_ok hview
  exact ⟨lsm₀, lsm, hinit, (of_decide_eq_true hcalm).imp fun _ _ => calmly.calm, hrun, hlive,
    by decide +kernel⟩

theorem value_eq_written_rewriteSome :
  ∃ lsm₀ lsm, init tinyGeometry tinyParam 0 = .ok lsm₀ ∧
    Transition.run (Lsmtree.step tinyGeometry) lsm₀ rewriteSome = .ok lsm ∧
    [1, 2, 4, 5].map (lsm.value tinyGeometry) = [some 201, some 102, some 4, none] ∧
    (lsm.sc.scMap 5 = none ↔ written rewriteSome 5 = none)
  := by
  obtain ⟨lsm₀, lsm, hinit, hcalm, hrun, -, hwritten⟩ := rewriteSome_calm
  have hrange : tinyParam.range ≤ uint32Max := by decide
  have hstore := value_eq_written hrange hinit hcalm hrun
  use lsm₀, lsm, hinit, hrun
  constructor
  · rw [← hwritten]
    apply List.map_congr_left
    intro lba _
    apply (hstore lba).1
  · apply (hstore 5).2

/-- In a calm run a merge finds out about every old entry of every run. -/
theorem oldEntry_of_unowned {blank : δ} {lsm₀ : Lsmtree δ} {ops : List (LsmOp δ)}
    (hrange : p.range ≤ uint32Max) (hinit : init g p blank = .ok lsm₀)
    (hcalm : Guarded (Lsmtree.step g) (Calm g) lsm₀ ops)
    (hrun : Transition.run (Lsmtree.step g) lsm₀ ops = .ok lsm) :
  ∀ r ∈ lsm.runs, ∀ e ∈ r.entries,
    lsm.sc.oldEntry r.info e = true ↔ lsm.sc.scMap e.lba ≠ some r.info
  := by
  obtain ⟨hfresh, -⟩ := (fresh_init hinit).run (kept_init hinit) hrange
    (hcalm.imp fun _ _ => Calm.orderly) hrun
  intro r hr e he
  constructor
  · intro hold howner
    rw [ShortcutMaster.oldEntry_owner howner] at hold
    cases hold
  · intro hne
    apply (@ShortcutMaster.oldEntry_iff _ _ δ lsm.dev e hne).mpr
    apply hfresh.current.old _ (.inr ⟨r, hr, e, he, rfl⟩) hne

theorem oldEntry_of_unowned_rewriteSome :
  ∃ lsm₀ lsm, init tinyGeometry tinyParam 0 = .ok lsm₀ ∧
    Transition.run (Lsmtree.step tinyGeometry) lsm₀ rewriteSome = .ok lsm ∧
    lsm.live.map (·.nowEntryNum) = [1, 23] ∧
    ∀ r ∈ lsm.runs, ∀ e ∈ r.entries,
      lsm.sc.oldEntry r.info e = true ↔ lsm.sc.scMap e.lba ≠ some r.info
  := by
  obtain ⟨lsm₀, lsm, hinit, hcalm, hrun, hlive, -⟩ := rewriteSome_calm
  have hrange : tinyParam.range ≤ uint32Max := by decide
  use lsm₀, lsm, hinit, hrun, hlive, oldEntry_of_unowned hrange hinit hcalm hrun

end Lsmtree

end AppL
