import AppL.Lsm.Query
import AppL.Lsm.RangeSearch
import AppL.Lsm.Store
import AppL.Lsm.Legible
import AppL.Mapping.PlrMap

/-!
# Reading from the tree

A read looks into the memtable and then into the run that the shortcut names.  There the summary
of the ranges gives the block, its mapping function an offset in the block, and the out-of-band
area of the page tells whether the sector is the right one; if not, the mapping function is asked
again.
-/

namespace AppL

open Transition Directory WriteOnce

variable {δ : Type}

/-- What the mapping functions of the blocks are set up with: the fingerprints and
`__target_member` of `GUARD_BF`, the bits and the range of a regression and what its fields hold
before they are set, and the lookup of a mapping function of another type. -/
structure MapSettings where
  fp : ℕ → ℕ
  targetMember : ℕ
  plr : Plr.Param
  unset : Plr.Unset
  other : MapFunction → (ℕ → ℕ) → ℕ → ℕ → Except Abort (Option ℕ × ℕ)

namespace MapFunction

variable (g : Geometry) (m : MapSettings) (mf : MapFunction)

/-- The mapping function of type `GUARD_BF` after its insertions. -/
def guardBf : Except Abort BfgMap :=
  (BfgMap.init m.targetMember g.maxSectorInBlock).insertAll m.fp m.targetMember
    (mf.contents.map (·.1))

/-- The mapping function of type `PLR_MAP` after its insertions and `make_done`. -/
def plrMap : Except Abort PlrMap := do
  let map ← mf.contents.foldlM (fun map x => map.insert m.plr x.1 x.2)
    (PlrMap.init m.unset g.maxSectorInBlock)
  map.makeDone m.plr

/-- `query_by_req` of the mapping function of the block at `pba`, with the page reads, the checks
of their out-of-band areas and the retries that follow. -/
def lookup (oob : ℕ → ℕ) (pba lba : ℕ) : Except Abort (Option ℕ × ℕ) :=
  match mf.type with
  | .guardBf => do
      let map ← mf.guardBf g m
      map.lookup m.fp m.targetMember oob pba g.maxSectorInBlock lba
  | .plrMap => do
      let map ← mf.plrMap g m
      map.lookup m.plr oob pba 2 lba
  | _ => m.other mf oob pba lba

end MapFunction

namespace Run

variable (g : Geometry) (m : MapSettings)

/-- `run_query` and the retries of `run_query_retry`. -/
def query (r : Run δ) (dev : Dev δ) (lba : ℕ) : Except Abort (Option δ) :=
  match r.pp.bind fun pp => pp.findValue lba with
  | some d => .ok (some d)
  | none =>
      match r.type with
      | .runLog => .ok (r.queryLog g dev lba)
      | .runNormal =>
          match r.stBody.getTargetSte lba with
          | none => .ok none
          | some steNum => do
              let mf ← orThrow .outOfBounds (r.stBody.steAt steNum).mf
              let (psa, _) ← mf.lookup g m dev.bm.oob (r.stBody.steAt steNum).pba lba
              return psa.map dev.data

end Run

namespace Lsmtree

variable (g : Geometry) (m : MapSettings) (lsm : Lsmtree δ)

/-- `lsmtree_read` with what follows it until the request is finished.  The memtable has the last
word when it has the lba in its buffer or in its tree. -/
def read (lba : ℕ) : Except Abort (Option δ) :=
  if (lsm.memtable.pp.bind fun pp => pp.findValue lba).isSome ∨
      (lsm.memtable.runLogMf.lookup lba).isSome then
    .ok (lsm.memtable.queryLog g lsm.dev lba)
  else
    match lsm.sc.scMap lba with
    | none => .ok none
    | some i => do
        let r ← orThrow .outOfBounds (lsm.live.find? fun r => r.info == i)
        -- `run_pick_target_mf`
        let _ ← orThrow .outOfBounds (r.stBody.getTargetSte lba)
        r.query g m lsm.dev lba

end Lsmtree

variable {g : Geometry} {m : MapSettings}

/-! ### Blocks -/

/-- The regressions of the run are good enough for its blocks. -/
def Run.Learned (g : Geometry) (m : MapSettings) (r : Run δ) : Prop :=
  ∀ ste ∈ r.stBody.stes, ∀ mf, ste.mf = some mf → mf.type = .plrMap →
    ∃ map, mf.plrMap g m = .ok map ∧ map.Covers m.plr ste.lbas

namespace Ste

variable {ste : Ste} {blank : Set ℕ} {dev : Dev δ}

/-- A block with more than one page is filled up with `UINT32_MAX`. -/
theorem Written.holdsLbas (h : ste.Written blank dev) (hlen : l2pgap < ste.lbas.length) :
  HoldsLbas dev.bm.oob ste.pba ste.lbas
  := by
  intro k hk
  have hlength : ste.lbas.length = ste.page.length := List.length_map _
  have hpage : k / l2pgap * l2pgap < ste.lbas.length :=
    (lt_ceilDiv (by decide)).mp ((Nat.div_lt_iff_lt_mul (by decide)).mpr hk)
  rw [hlength] at hpage hlen
  obtain ⟨d, -, hcell⟩ := h k hpage (.inr hlen)
  exact congrArg Prod.snd hcell

/-- The mapping function of a block finds the sectors of the block. -/
theorem lookup_written {mf : MapFunction} (hmf : ste.mf = some mf) (hindexed : ste.Indexed)
    (hwritten : ste.Written blank dev) (hasc : ste.lbas.Pairwise (· < ·))
    (hlt : ∀ lba ∈ ste.lbas, lba < 2 ^ 31) (hlen : ste.lbas.length ≤ g.maxSectorInBlock)
    (hm : 0 < m.targetMember) (hlearned : mf.type = .plrMap →
      ∃ map, mf.plrMap g m = .ok map ∧ map.Covers m.plr ste.lbas)
    {j lba : ℕ} (hj : ste.lbas[j]? = some lba) :
  ∃ reads, mf.lookup g m dev.bm.oob ste.pba lba = .ok (some (ste.pba * l2pgap + j), reads)
  := by
  obtain ⟨t, ht, hcontents⟩ := hindexed
  obtain rfl : mf = ⟨t, ste.lbas.zipIdx⟩ := Option.some.inj (hmf.symm.trans hcontents)
  have hoob : ∀ i x, ste.lbas[i]? = some x → dev.bm.oob (ste.pba * l2pgap + i) = x :=
    fun i x hx => (hwritten.piece hx).2
  rcases ht with rfl | rfl
  · obtain ⟨map, hmap, hind⟩ := @BfgMap.insertAll_init m.fp _ _ hm _ hlen
    obtain ⟨reads, hread, -⟩ := BfgMap.lookup_hits hm hind hoob hasc hlt hlen hj
    use reads
    simp only [MapFunction.lookup, MapFunction.guardBf, List.zipIdx_map_fst, hmap, bind,
      Except.bind, hread]
  · obtain ⟨map, hmap, hcovers⟩ := hlearned rfl
    have hmax : ∀ lba ∈ ste.lbas, lba < uint32Max := fun lba hlba =>
      (hlt lba hlba).trans (by decide)
    obtain ⟨reads, hread, -⟩ := PlrMap.lookup_sector hoob hwritten.holdsLbas hasc hmax hcovers hj
    use reads
    simp only [MapFunction.lookup, hmap, bind, Except.bind, hread]

end Ste

/-! ### Runs -/

namespace Run

variable {r : Run δ} {blank : Set ℕ} {dev : Dev δ} {range : ℕ}

/-- A query of a sound run finds the sector of every entry. -/
theorem query_entry (h : r.Sound g range) (hlegible : r.Legible blank dev) (hpp : r.pp = none)
    (hrange : range ≤ 2 ^ 31) (hm : 0 < m.targetMember) (hlearned : r.Learned g m) {e : Entry}
    (he : e ∈ r.entries) :
  (∃ i, r.stBody.getTargetSte e.lba = some i) ∧
    r.query g m dev e.lba = .ok (some (dev.data e.psa))
  := by
  obtain ⟨ste, hste, he⟩ := List.mem_flatMap.mp he
  have hste : ste ∈ r.stBody.stes := by
    rcases List.mem_append.mp hste with hste | hste
    · apply hste
    · rw [List.mem_singleton.mp hste, Ste.entries, h.finished.nil] at he
      cases he
  obtain ⟨hblock, -⟩ := h.finished.stes ste hste
  obtain ⟨i, hi⟩ := List.mem_iff_getElem?.mp hste
  have hcovers := hblock.self.covers_entry he
  have htarget := (StArray.getTargetSte_eq_some h.ranged e.lba i).mpr ⟨ste, hi, hcovers⟩
  use ⟨i, htarget⟩
  obtain ⟨p, hp, rfl⟩ := List.mem_map.mp he
  obtain ⟨j, hj⟩ := List.mem_iff_getElem?.mp hp
  have hpiece := hblock.self.piece j p hj
  have hlba : ste.lbas[j]? = some p.lba := by
    rw [Ste.lbas, List.getElem?_map, hj]
    rfl
  have hlt : ∀ lba ∈ ste.lbas, lba < 2 ^ 31 := by
    intro lba hmem
    obtain ⟨q, hq, rfl⟩ := List.mem_map.mp hmem
    refine Nat.lt_of_lt_of_le (h.lt ⟨q.lba, q.piecePpa, ste.orig⟩ ?_) hrange
    apply List.mem_flatMap.mpr ⟨ste, List.mem_append.mpr (.inl hste), List.mem_map_of_mem hq⟩
  obtain ⟨t, ht, hmf⟩ := hlegible.indexed ste hste hblock.copied
  obtain ⟨reads, hread⟩ := Ste.lookup_written hmf ⟨t, ht, hmf⟩ (hlegible.written ste hste)
    (h.lbas_asc hste) hlt ((List.length_map _).trans_le hblock.self.length_le) hm
    (hlearned ste hste _ hmf) hlba
  have hat : r.stBody.steAt i = ste := by rw [StArray.steAt, hi, Option.getD_some]
  dsimp only at htarget ⊢
  rw [query, hpp, h.type]
  simp only [Option.bind_none, htarget, hat, hmf, orThrow, bind, Except.bind, hread, pure,
    Except.pure, Option.map_some, hpiece]

end Run

/-! ### The tree -/

namespace Lsmtree

variable {lsm : Lsmtree δ} {p : Param} {rebuilds : Bool} {val : ℕ → Option δ} {lba : ℕ}

theorem lastData_none_iff {items : List (ℕ × δ)} :
  lastData items lba = none ↔ firstData items lba = none
  := lastData_eq_none.trans firstData_eq_none.symm

theorem find_buffered {r : Run δ} :
  (r.pp.bind fun pp => pp.findValue lba) = firstData r.buffered lba
  := by
  rw [Run.buffered]
  cases r.pp with
  | none => rfl
  | some pp => rfl

/-- What a read finds that does not stop at the memtable. -/
theorem Fresh.read_below (h : lsm.Fresh rebuilds g p val) (hkept : lsm.Kept g p []) (hl : lsm.Legible g)
    (hrange : p.range ≤ 2 ^ 31) (hm : 0 < m.targetMember)
    (hlearned : ∀ r ∈ lsm.runs, r.Learned g m)
    (hbuf : firstData lsm.memtable.buffered lba = none)
    (htree : lsm.memtable.runLogMf.lookup lba = none) :
  lsm.read g m lba = .ok (val lba)
  := by
  have hnodup : (lsm.live.map (·.info)).Nodup := by
    have hbooks := hkept.books.nodup
    rw [List.map_append, List.append_assoc] at hbooks
    apply hbooks.of_append_left
  rw [read, find_buffered, hbuf, htree, if_neg (by simp)]
  cases ho : lsm.sc.scMap lba with
  | none => rw [h.current.none lba ho]
  | some i =>
      obtain ⟨c, hc, rfl⟩ := h.current.held lba i ho
      have hval := h.current.own _ hc ho
      rcases hc with ⟨-, lba, d, hd, hx⟩ | ⟨r, hr, e, he, hx⟩
      · cases hx
        rw [Run.latest, lastData_none_iff.mpr hbuf, Run.treeData, htree] at hd
        cases hd
      · cases hx
        obtain ⟨⟨j, hj⟩, hquery⟩ := Run.query_entry (hkept.runs r hr) (hl.runs r hr)
          (hl.done r hr) hrange hm (hlearned r hr) he
        have hlive := find_info hnodup (live_eq ▸ List.mem_append.mpr (.inr hr))
        have hkey : (e.copy lsm.dev).version.key = e.lba := rfl
        dsimp only at hval ⊢
        rw [hval]
        simp only [hkey, hlive, hj, hquery, orThrow, bind, Except.bind]
        rfl

/-- The memtable has the data that was written last, if it has any for the lba. -/
theorem Fresh.latest_eq (h : lsm.Fresh rebuilds g p val) (hidle : lsm.phase = .idle) {d : δ}
    (hd : lsm.memtable.latest g lsm.dev lba = some d) :
  val lba = some d
  := by
  have hx : (lsm.memtable.info, ⟨lba, d, none⟩) ∈ lsm.shelf g := .inl ⟨hidle, lba, d, hd, rfl⟩
  refine (h.current.val_of_not_outranked hx ?_).2
  rintro ⟨o, ho, hout | ⟨s, hs, -⟩⟩
  · apply h.not_above hidle ho hout
  · cases hs

/-- What the memtable has for an lba that it finds. -/
theorem Fresh.read_front (h : lsm.Fresh rebuilds g p val) (hkept : lsm.Kept g p []) (hl : lsm.Legible g)
    (hidle : lsm.phase = .idle)
    (hfound : (firstData lsm.memtable.buffered lba).isSome ∨
      (lsm.memtable.runLogMf.lookup lba).isSome) :
  lsm.read g m lba = .ok ((firstData lsm.memtable.buffered lba).or
    (lsm.memtable.treeData g lsm.dev lba)) ∧
  val lba = (lastData lsm.memtable.buffered lba).or (lsm.memtable.treeData g lsm.dev lba)
  := by
  obtain ⟨-, items, hlog⟩ := hkept.log hidle
  have htag := (hl.front hidle).tagged hlog.log
  have htree : lsm.memtable.treeData g lsm.dev lba = lastData items lba :=
    Run.treeData_eq hlog.log.asc hlog.log.last hlog.logs
  constructor
  · rw [read, if_pos, Run.queryLog_eq hlog htag, htree]
    rw [find_buffered]
    apply hfound
  · obtain ⟨d, hd⟩ : ∃ d, lsm.memtable.latest g lsm.dev lba = some d := by
      rw [← Option.isSome_iff_exists, Run.latest, Option.isSome_or, Bool.or_eq_true]
      refine hfound.imp ?_ ?_
      · intro hfirst
        rw [Option.isSome_iff_ne_none] at hfirst ⊢
        exact fun hlast => hfirst (lastData_none_iff.mp hlast)
      · intro hlookup
        rw [Run.treeData, Option.isSome_map]
        apply hlookup
    rw [h.latest_eq hidle hd, ← hd, Run.latest]

/-- A read of the tree, in a calm run, between two calls of `lsmtree_insert`, finds the data that
was written to the lba last, or nothing when nothing was written, exactly when the first sector of
the lba in the page buffer, if there is one, has this data. -/
theorem read_eq_written {blank : δ} {lsm₀ : Lsmtree δ} {ops : List (LsmOp δ)}
    (hrange : p.range ≤ 2 ^ 31) (hcache : p.cacheFlag = false) (hm : 0 < m.targetMember)
    (hinit : init g p blank = .ok lsm₀) (hcalm : Guarded (Lsmtree.step g) (Calm g) lsm₀ ops)
    (hrun : Transition.run (Lsmtree.step g) lsm₀ ops = .ok lsm) (hidle : lsm.phase = .idle)
    (hlearned : ∀ r ∈ lsm.runs, r.Learned g m) (lba : ℕ) :
  lsm.read g m lba = .ok (written ops lba) ↔
    ∀ d, firstData lsm.memtable.buffered lba = some d →
      lastData lsm.memtable.buffered lba = some d
  := by
  have hmax : p.range ≤ uint32Max := hrange.trans (by decide)
  obtain ⟨hfresh, hkept⟩ := (fresh_init hinit).run (kept_init hinit) hmax
    (hcalm.imp fun _ _ => Calm.orderly) hrun
  change lsm.Fresh false g p (written ops) at hfresh
  obtain ⟨hl, -⟩ := (legible_init hinit).run (kept_init hinit) hmax hcache
    (hcalm.imp fun _ _ h => h.once) hrun
  by_cases hfound : (firstData lsm.memtable.buffered lba).isSome ∨
      (lsm.memtable.runLogMf.lookup lba).isSome
  · obtain ⟨hread, hval⟩ := hfresh.read_front (m := m) hkept hl hidle hfound
    rw [hread, hval, Except.ok.injEq]
    cases hfirst : firstData lsm.memtable.buffered lba with
    | none => simp [lastData_none_iff.mpr hfirst]
    | some d =>
        obtain ⟨d', hlast⟩ : ∃ d', lastData lsm.memtable.buffered lba = some d' := by
          rw [← Option.isSome_iff_exists, Option.isSome_iff_ne_none]
          intro hnone
          rw [lastData_none_iff.mp hnone] at hfirst
          cases hfirst
        simp [hlast, eq_comm]
  · rw [not_or, Option.not_isSome_iff_eq_none, Option.not_isSome_iff_eq_none] at hfound
    obtain ⟨hbuf, htree⟩ := hfound
    rw [hfresh.read_below hkept hl hrange hm hlearned hbuf htree, hbuf]
    simp

/-- The regression of a mapping function that is at hand is good enough for the lbas. -/
def covering (g : Geometry) (m : MapSettings) (mf : MapFunction) (lbas : List ℕ) : Bool :=
  match mf.plrMap g m with
  | .ok map => decide (map.Covers m.plr lbas)
  | .error _ => false

theorem covering.learned {mf : MapFunction} {lbas : List ℕ} (h : covering g m mf lbas = true) :
  ∃ map, mf.plrMap g m = .ok map ∧ map.Covers m.plr lbas
  := by
  unfold covering at h
  split at h
  · rename_i map hmap
    exact ⟨map, hmap, of_decide_eq_true h⟩
  · cases h

/-- Short fingerprints in groups of two. -/
def tinyMaps : MapSettings where
  fp := symbolized 4
  targetMember := 2
  plr := Plr.smallRange
  unset := ⟨⟨0, 0⟩, ⟨0, 0⟩, ⟨0, 0⟩, ⟨0, 0⟩, ⟨0, 0⟩, ⟨0, 0⟩⟩
  other _ _ _ _ := .error .notImplemented

/-- Memtables of one page, and two levels of two runs. -/
def pageParam : Param := ⟨false, 4, 2, 2, 4, 4, 1, 1, 60⟩

/-- Two memtables are merged into a run of the second level, and one of its lbas is written
again. -/
def readBack : List (LsmOp ℕ) :=
  [1, 2, 5, 6].map (fun lba => .write lba (lba + 100)) ++ [.flush, .compact 0 1, .finish] ++
    [3, 6, 4, 1].map (fun lba => .write lba (lba + 200)) ++
    [.flush, .compact 0 1, .compact 0 1, .finish, .write 2 302]

/-- The lbas of the blocks of all runs, with the mapping functions. -/
def tables (lsm : Lsmtree δ) : List (List ℕ × Option MapFunction) :=
  lsm.runs.flatMap fun r => r.stBody.stes.map fun ste => (ste.lbas, ste.mf)

/-- The blocks after `readBack`. -/
def readBackTables : List (List ℕ × Option MapFunction) :=
  [[1, 2, 3, 4], [5, 6]].map fun lbas => (lbas, some ⟨.plrMap, lbas.zipIdx⟩)

theorem read_eq_written_readBack :
  ∃ lsm₀ lsm, init tinyGeometry pageParam 0 = .ok lsm₀ ∧
    Transition.run (Lsmtree.step tinyGeometry) lsm₀ readBack = .ok lsm ∧
    [2, 5, 6, 7].map (lsm.read tinyGeometry tinyMaps)
      = [.ok (some 302), .ok (some 105), .ok (some 206), .ok none]
  := by
  have hview : (init tinyGeometry pageParam 0).map (fun lsm₀ =>
      (decide (Guarded (Lsmtree.step tinyGeometry)
          (fun lsm op => calmly tinyGeometry lsm op = true) lsm₀ readBack),
        (Transition.run (Lsmtree.step tinyGeometry) lsm₀ readBack).map fun lsm =>
          decide (lsm.phase = .idle ∧ lsm.memtable.buffered = [(2, 302)] ∧
            lsm.tables = readBackTables)))
      = .ok (true, .ok true) := by
    decide +kernel
  obtain ⟨lsm₀, hinit, hview⟩ := map_eq_ok hview
  obtain ⟨hcalm, hview⟩ := Prod.mk.inj hview
  obtain ⟨lsm, hrun, hview⟩ := map_eq_ok hview
  obtain ⟨hidle, hbuf, htables⟩ := of_decide_eq_true hview
  use lsm₀, lsm, hinit, hrun
  have hlearned : ∀ r ∈ lsm.runs, r.Learned tinyGeometry tinyMaps := by
    intro r hr ste hste mf hmf _
    have hmem : (ste.lbas, ste.mf) ∈ lsm.tables :=
      List.mem_flatMap.mpr ⟨r, hr, List.mem_map_of_mem hste⟩
    have hall : ∀ x ∈ readBackTables, ∀ mf ∈ x.2, covering tinyGeometry tinyMaps mf x.1 = true := by
      decide +kernel
    rw [htables] at hmem
    apply covering.learned (hall _ hmem mf hmf)
  have hread : ∀ lba, lsm.read tinyGeometry tinyMaps lba = .ok (written readBack lba) := by
    intro lba
    refine (read_eq_written (by decide) rfl (by decide) hinit
      ((of_decide_eq_true hcalm).imp fun _ _ => calmly.calm) hrun hidle
      hlearned lba).mpr ?_
    rw [hbuf]
    exact fun _ hd => hd
  rw [List.map_congr_left fun lba _ => hread lba]
  rfl

/-- The pages of every block of a run, also of one that has been moved, have its lbas in their
out-of-band areas and are filled up with `UINT32_MAX`, and its mapping function has every lba at
its offset. -/
theorem blocks_legible {blank : δ} {lsm₀ : Lsmtree δ} {ops : List (LsmOp δ)}
    (hrange : p.range ≤ uint32Max) (hcache : p.cacheFlag = false)
    (hinit : init g p blank = .ok lsm₀)
    (honce : Guarded (Lsmtree.step g) (FlushesOnce g) lsm₀ ops)
    (hrun : Transition.run (Lsmtree.step g) lsm₀ ops = .ok lsm) :
  ∀ r ∈ lsm.runs, ∀ ste ∈ r.stBody.stes,
    (∀ k lba, ste.lbas[k]? = some lba → lsm.dev.bm.oob (ste.pba * l2pgap + k) = lba) ∧
    (l2pgap < ste.lbas.length → HoldsLbas lsm.dev.bm.oob ste.pba ste.lbas) ∧
    ste.lbas.Pairwise (· < ·) ∧
    ∃ t : MapType, t.InMemory ∧ ste.mf = some ⟨t, ste.lbas.zipIdx⟩
  := by
  have hkept := (kept_init hinit).run hrange honce hrun
  obtain ⟨hl, -⟩ := (legible_init hinit).run (kept_init hinit) hrange hcache honce hrun
  intro r hr ste hste
  have hsound := hkept.runs r hr
  have hwritten := (hl.runs r hr).written ste hste
  exact ⟨fun k lba hk => (hwritten.piece hk).2, hwritten.holdsLbas, hsound.lbas_asc hste,
    (hl.runs r hr).indexed ste hste (hsound.finished.stes ste hste).1.copied⟩

theorem blocks_legible_mergeTwo :
  ∃ lsm₀ lsm, init tinyGeometry tinyParam 0 = .ok lsm₀ ∧
    Transition.run (Lsmtree.step tinyGeometry) lsm₀ mergeTwo = .ok lsm ∧
    lsm.live.map (·.nowEntryNum) = [0, 23] ∧
    ∀ r ∈ lsm.runs, ∀ ste ∈ r.stBody.stes, ∀ k lba, ste.lbas[k]? = some lba →
      lsm.dev.bm.oob (ste.pba * l2pgap + k) = lba
  := by
  obtain ⟨lsm₀, lsm, hinit, honce, hrun, -, hlive⟩ := mergeTwo_guarded
  have hrange : tinyParam.range ≤ uint32Max := by decide
  exact ⟨lsm₀, lsm, hinit, hrun, hlive, fun r hr ste hste =>
    (blocks_legible hrange rfl hinit honce hrun r hr ste hste).1⟩

end Lsmtree

end AppL
