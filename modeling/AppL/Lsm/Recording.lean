import AppL.Lsm.Handover
import AppL.Lsm.Pages

/-!
# Pages through a merge

A merge reads and invalidates entries of its sources without writing to them, and its target
records what it writes.  A block that is moved keeps its pages, and its mapping function is
either its old one or a new one with the same lbas.
-/

namespace AppL

open Transition WriteOnce

variable {δ : Type} {g : Geometry}

namespace Mm

variable {mm mm' : Mm δ} {dev dev' : Dev δ}

theorem moveIterTarget_run (h : mm.moveIterTarget = .ok mm') :
  mm'.r = mm.r
  := by
  unfold moveIterTarget at h
  split at h
  · cases h
    rfl
  · rw [bind_eq_ok] at h
    obtain ⟨ssi, -, hret⟩ := h
    cases hret
    rfl

theorem invalidateTarget_quiet {lba piecePpa steNum : ℕ} {force : Bool} (hl : dev.Layout g)
    (h : mm.invalidateTarget g dev lba piecePpa force steNum = .ok dev') :
  dev.Quiet g dev'
  := by
  simp only [invalidateTarget, bind_eq_ok] at h
  obtain ⟨psa, -, h⟩ := h
  obtain ⟨hpool, hcell⟩ := Dev.invalidatePiecePpa_pool h
  apply hpool.quiet hcell hl

end Mm

namespace MergeState

variable {others : Set ℕ} {st st' : MergeState δ} {dev dev' : Dev δ}

/-! ### Sorting -/

/-- Nothing is written, and no run changes. -/
structure Quiet (g : Geometry) (st st' : MergeState δ) : Prop where
  res : st'.res = st.res
  runs : st'.mms.map (·.r) = st.mms.map (·.r)
  dev : st.dev.Quiet g st'.dev

theorem Quiet.refl (hl : st.dev.Layout g) :
  st.Quiet g st
  := ⟨rfl, rfl, Dev.Quiet.refl hl⟩

theorem Quiet.trans {st'' : MergeState δ} (h : st.Quiet g st') (h' : st'.Quiet g st'') :
  st.Quiet g st''
  := ⟨h'.res.trans h.res, h'.runs.trans h.runs, h.dev.trans h'.dev⟩

theorem map_run_set {mms : List (Mm δ)} {i : ℕ} {mm mm' : Mm δ} (h : mms[i]? = some mm)
    (hrun : mm'.r = mm.r) :
  (mms.set i mm').map (·.r) = mms.map (·.r)
  := by
  obtain ⟨l, l', rfl, hlen, hset⟩ := split_at h
  rw [hset, List.map_append, List.map_append, List.map_cons, List.map_cons, hrun]

theorem skipOld_quiet {ridx : ℕ} {p : Picked} (hl : st.dev.Layout g)
    (hok : st.skipOld g ridx p = .ok st') :
  st.Quiet g st'
  := by
  simp only [skipOld, bind_eq_ok, orThrow_eq_ok] at hok
  obtain ⟨mm, hget, dev, hinv, mm', hmove, hret⟩ := hok
  cases hret
  exact ⟨rfl, map_run_set hget (Mm.moveIterTarget_run hmove), Mm.invalidateTarget_quiet hl hinv⟩

theorem pickSmallestPair_quiet (fuel : ℕ) :
  ∀ {st st' : MergeState δ} {picked : Option (ℕ × Picked)}, st.dev.Layout g →
    pickSmallestPair g fuel st = .ok (picked, st') → st.Quiet g st'
  := by
  induction fuel with
  | zero =>
      intro st st' picked _ hok
      cases hok
  | succ fuel ih =>
      intro st st' picked hl hok
      unfold pickSmallestPair at hok
      split at hok
      · simp only [bind_eq_ok] at hok
        obtain ⟨-, -, hret⟩ := hok
        cases hret
        apply Quiet.refl hl
      · simp only [bind_eq_ok] at hok
        obtain ⟨mm, -, hok⟩ := hok
        split at hok
        · rw [bind_eq_ok] at hok
          obtain ⟨st₁, hskip, hrest⟩ := hok
          have hquiet := skipOld_quiet hl hskip
          apply hquiet.trans (ih hquiet.dev.layout hrest)
        · cases hok
          apply Quiet.refl hl

theorem dropOther_quiet {mm : Mm δ} {p : Picked} {isOther : Bool} {piecePpa : ℕ}
    (hl : dev.Layout g) (hok : dropOther g mm p isOther piecePpa dev = .ok dev') :
  dev.Quiet g dev'
  := by
  unfold dropOther at hok
  split at hok
  · apply Mm.invalidateTarget_quiet hl hok
  · cases hok
    apply Dev.Quiet.refl hl

theorem moveIter_quiet {lba piecePpa ridx : ℕ} (mms : List (Mm δ)) :
  ∀ {i : ℕ} {mms' : List (Mm δ)} {dev dev' : Dev δ}, dev.Layout g →
    moveIter g lba piecePpa ridx i mms dev = .ok (mms', dev') →
    mms'.map (·.r) = mms.map (·.r) ∧ dev.Quiet g dev'
  := by
  induction mms with
  | nil =>
      intro i mms' dev dev' hl hok
      cases hok
      exact ⟨rfl, Dev.Quiet.refl hl⟩
  | cons mm mms ih =>
      intro i mms' dev dev' hl hok
      have hstay : ∀ {x : List (Mm δ) × Dev δ},
          moveIter g lba piecePpa ridx (i + 1) mms dev = .ok x → mms' = mm :: x.1 → dev' = x.2 →
          mms'.map (·.r) = (mm :: mms).map (·.r) ∧ dev.Quiet g dev' := by
        rintro x hrest rfl rfl
        obtain ⟨hruns, hquiet⟩ := ih hl hrest
        exact ⟨congrArg (mm.r :: ·) hruns, hquiet⟩
      unfold moveIter at hok
      split at hok
      · rw [bind_eq_ok] at hok
        obtain ⟨x, hrest, hret⟩ := hok
        cases hret
        apply hstay hrest rfl rfl
      · rw [bind_eq_ok] at hok
        obtain ⟨p, -, hok⟩ := hok
        split at hok
        · simp only [bind_eq_ok] at hok
          obtain ⟨dev₁, hdrop, mm', hmove, ⟨rest, dev₂⟩, hrest, hret⟩ := hok
          cases hret
          have hquiet := dropOther_quiet hl hdrop
          obtain ⟨hruns, hquiet'⟩ := ih hquiet.layout hrest
          refine ⟨?_, hquiet.trans hquiet'⟩
          rw [List.map_cons, List.map_cons, hruns, Mm.moveIterTarget_run hmove]
        · rw [bind_eq_ok] at hok
          obtain ⟨x, hrest, hret⟩ := hok
          cases hret
          apply hstay hrest rfl rfl

theorem push_quiet {ridx : ℕ} {p : Picked} (hl : st.dev.Layout g)
    (hok : st.push g ridx p = .ok st') :
  st.Quiet g st'
  := by
  simp only [push, bind_eq_ok] at hok
  obtain ⟨⟨mms, dev⟩, hmove, hret⟩ := hok
  cases hret
  obtain ⟨hruns, hquiet⟩ := moveIter_quiet st.mms hl hmove
  exact ⟨rfl, hruns, hquiet⟩

theorem noncopyNext_quiet {ridx : ℕ} (hl : st.dev.Layout g) :
  st.Quiet g (st.noncopyNext ridx)
  := by
  refine ⟨rfl, ?_, Dev.Quiet.refl hl⟩
  apply List.ext_getElem?
  intro i
  rw [noncopyNext, List.getElem?_map, List.getElem?_map, List.getElem?_modify]
  cases st.mms[i]? with
  | none => rfl
  | some mm =>
      simp only [Option.map_eq_map, Option.map_some]
      split
      · rfl
      · rfl

/-- `__sorting_mm_set`. -/
theorem sortingMmSet_quiet {targetRound : ℕ} {flag : Bool} (fuel : ℕ) :
  ∀ {st st' : MergeState δ} {prev target : Option ℕ}, st.dev.Layout g →
    sortingMmSet g targetRound flag fuel prev st = .ok (target, st') → st.Quiet g st'
  := by
  induction fuel with
  | zero =>
      intro st st' prev target _ hok
      cases hok
  | succ fuel ih =>
      intro st st' prev target hl hok
      unfold sortingMmSet at hok
      split at hok
      · cases hok
        apply Quiet.refl hl
      · rw [bind_eq_ok] at hok
        obtain ⟨⟨picked, st₁⟩, hpick, hok⟩ := hok
        have hquiet := pickSmallestPair_quiet _ hl hpick
        cases picked with
        | none => apply hquiet.trans (ih hquiet.dev.layout hok)
        | some x =>
            dsimp only at hok
            split at hok
            · cases hok
              apply hquiet.trans (noncopyNext_quiet hquiet.dev.layout)
            · simp only [bind_eq_ok, require_eq_ok] at hok
              obtain ⟨-, -, st₂, hpush, hrest⟩ := hok
              have hquiet₂ := hquiet.trans (push_quiet hquiet.dev.layout hpush)
              apply hquiet₂.trans (ih hquiet₂.dev.layout hrest)

/-! ### Writing -/

/-- The target has recorded what it has written, and the sources can be read. -/
structure Recorded (g : Geometry) (others : Set ℕ) (st : MergeState δ) : Prop where
  res : st.res.Recorded g others st.dev
  srcs : ∀ mm ∈ st.mms, mm.r.Legible (st.res.stBody.blank g others st.dev) st.dev

/-- The merge has gone on by writing to blank pieces. -/
structure Records (g : Geometry) (others : Set ℕ) (st st' : MergeState δ) : Prop where
  recorded : st'.Recorded g others
  fills : FillsIn (st.res.stBody.blank g others st.dev) (st'.res.stBody.blank g others st'.dev)
    st.dev.cell st'.dev.cell

theorem Records.trans {st'' : MergeState δ} (h : st.Records g others st')
    (h' : st'.Records g others st'') :
  st.Records g others st''
  := ⟨h'.recorded, h.fills.trans h'.fills⟩

/-- The sources stay as they are while the target goes on. -/
theorem Recorded.step (h : st.Recorded g others) (hruns : st'.mms.map (·.r) = st.mms.map (·.r))
    (hres : st.res.Records g others st'.res st.dev st'.dev) :
  st.Records g others st'
  := by
  refine ⟨⟨hres.recorded, ?_⟩, hres.fills⟩
  intro mm hmm
  have hmem : mm.r ∈ st.mms.map (·.r) := hruns ▸ List.mem_map_of_mem hmm
  obtain ⟨mm₀, hmm₀, hrun⟩ := List.mem_map.mp hmem
  rw [← hrun]
  apply (h.srcs mm₀ hmm₀).fills hres.fills

theorem Recorded.quiet (h : st.Recorded g others) (hquiet : st.Quiet g st') :
  st.Records g others st'
  := by
  apply h.step hquiet.runs
  rw [hquiet.res]
  apply h.res.quiet hquiet.dev

theorem invalidateAll_quiet {xs : List (SortedPair × ℕ × δ)} (hl : dev.Layout g)
    (hok : xs.foldlM (invalidateSorted g st) dev = .ok dev') :
  dev.Quiet g dev'
  := by
  refine Dev.quiet_of_foldlM ?_ xs hl hok
  intro dev x dev' hl hinv
  simp only [invalidateSorted, bind_eq_ok] at hinv
  obtain ⟨mm, -, hinv⟩ := hinv
  apply Mm.invalidateTarget_quiet hl hinv

variable {range : ℕ} {held : List ℕ} {dev₀ : Dev δ} {m : Merging δ}
  {blocks : List (RunType × List Ste)}

/-- The sorted entries are written to the target. -/
theorem flushSorted_records (h : Sim g blocks st m) (hinv : m.Inv g range held dev₀)
    (hrange : range ≤ uint32Max) (hrec : st.Recorded g others)
    (hok : st.flushSorted g = .ok st') :
  st.Records g others st'
  := by
  unfold flushSorted at hok
  split at hok
  · cases hok
    apply hrec.quiet (Quiet.refl hrec.res.placed.layout)
  · simp only [sortedArrayFlush, bind_eq_ok] at hok
    obtain ⟨xs, hxs, dev, hdev, ⟨res, sc, dev'⟩, hins, sc', -, hret⟩ := hok
    cases hret
    have hread := readAll_ok h.sorted hxs
    have hclears := invalidateAll_ok hread hdev
    have hquiet := invalidateAll_quiet hrec.res.placed.layout hdev
    rw [foldlM_insertSorted] at hins
    obtain ⟨-, hpairs⟩ := map_readFrom hread
    rw [hpairs] at hins
    have hlbas : ∀ x ∈ m.sorted.map (fun y => (y.2.lba, st.dev.data y.2.psa)),
        x.1 ≤ uint32Max := by
      intro x hx
      obtain ⟨y, hy, rfl⟩ := List.mem_map.mp hx
      have hlt := hinv.out_lt y.2.lba (List.mem_append.mpr (.inr (List.mem_map.mpr ⟨y, hy, rfl⟩)))
      apply (hlt.trans_le hrange).le
    have hh : st.dev.Holds (m.sorted.map (·.2.psa) ++ (st.res.psas ++ st.res.sums ++
        (Merging.left m.srcs ++ (m.sums ++ held)))) := by
      rw [← h.dev, ← h.res]
      apply hinv.holds.perm
      rw [Merging.rest, List.perm_iff_count]
      intro q
      simp only [List.count_append]
      omega
    obtain ⟨hh', -⟩ := Dev.Holds.clears hclears hh
    have hwait := hrec.res.quiet hquiet
    have hwrite := Run.insertAll_records _ hlbas (h.res ▸ hinv.opened) hh' hwait.recorded hins
    exact hrec.step rfl (hwait.trans hwrite)

/-! ### Moving a block -/

/-- The lbas that `trivial_move` collects are those of the block. -/
theorem collected_lbas {mm mm₁ : Mm δ} {s : Ste} {e : Entry} {l : List Entry} {lbas : List ℕ}
    {j fuel : ℕ} {ssi : SpSetIter} (h : mm.Reading g) (hl : mm.left g = e :: l)
    (hs : mm.r.stBody.stes[j]? = some s) (hstart : s.startLba = e.lba) (hsorted : s.sorted = true)
    (hnodup : s.lbas.Nodup)
    (huniq : ∀ k s' lba, mm.r.stBody.stes[k]? = some s' → s'.Covers lba → s.Covers lba → k = j)
    (hcollect : collectLbas g s.endLba fuel mm = .ok (lbas, mm₁))
    (hmove : mm₁.ssi.moveSte j s.endLba = .ok ssi) :
  lbas = s.lbas
  := by
  obtain ⟨es, l', hleft, rfl, hle, -, habove, -⟩ := leave_ok h hs hcollect hmove
  have hes : es = s.entries := by
    rw [← h.block_entries hl hs hstart hsorted hnodup huniq, hleft, List.filter_append,
      List.filter_eq_self.mpr, List.filter_eq_nil_iff.mpr, List.append_nil]
    · intro e he
      simpa using habove e he
    · intro e he
      simpa using hle e he
  rw [hes, Ste.entries, List.map_map]
  rfl

/-- The mapping function that a moved block has in the target `res`. -/
def movedMf (res : Run δ) (mm : Mm δ) (lbas : List ℕ) (ste : Ste) : Option MapFunction :=
  (if mm.ssi.differMap then some ⟨res.stBody.mapType, lbas.zipIdx⟩ else none).orElse fun _ => ste.mf

/-- What a successful `trivial_move` has done, with the mapping function of the block. -/
theorem trivialMove_mf {ridx : ℕ} (hok : st.trivialMove g ridx = .ok st') :
  ∃ res dev mm p steNum lbas mm₁ ssi sc u,
    st.res.paddingCurrentBlock g st.dev = .ok (res, dev) ∧ st.mms[ridx]? = some mm ∧
    mm.pick g = some p ∧ targetSte g mm p.lba = some steNum ∧
    collectLbas g (mm.r.stBody.steAt steNum).endLba (mm.ssi.remaining + 1) mm
      = .ok (lbas, mm₁) ∧
    mm₁.ssi.moveSte steNum (mm.r.stBody.steAt steNum).endLba = .ok ssi ∧
    st' = { st with
      mms := st.mms.set ridx (leave mm₁ steNum ssi)
      res := res.takeSte (taken st.sc mm₁.r.info u (movedMf res mm₁ lbas
        (mm.r.stBody.steAt steNum)) (mm.r.stBody.steAt steNum)) lbas.length
      sc := sc
      dev := dev }
  := by
  simp only [trivialMove, bind_eq_ok, orThrow_eq_ok] at hok
  obtain ⟨⟨res, dev⟩, hpad, mm, hget, p, hp, steNum, hste, ⟨lbas, mm₁⟩, hcollect, sc, -, ssi,
    hmove, hret⟩ := hok
  cases hret
  refine ⟨res, dev, mm, p, steNum, lbas, mm₁, ssi, sc,
    (lbas.filter (st.sc.validityCheckLba mm₁.r.info ·)).length != lbas.length,
    hpad, hget, hp, hste, hcollect, hmove, ?_⟩
  simp only [StArray.copySte, StArray.modifySte, StArray.nowSteNum, modify_concat]
  rfl

/-- The block that `trivial_move` finds is the one at which the source stands. -/
theorem targetSte_movable {ridx j steNum : ℕ} {mm : Mm δ} {p : Picked} {ste : Ste}
    (h : Sim g blocks st m) (hat : AtBlock g blocks st ridx j mm p ste)
    (hste : targetSte g mm p.lba = some steNum) :
  steNum = j ∧ ∃ s, mm.r.stBody.stes[j]? = some s ∧ s.core = ste
  := by
  have hget := hat.picks.get
  have hread := h.mms mm (List.mem_of_getElem? hget)
  obtain ⟨s, hs, hcov⟩ := targetSte_covers hread.reads hat.picks.pick hste
  obtain ⟨s', hs', rfl⟩ := Movable.get h hget hat.movable
  obtain ⟨hmeta, hne⟩ := hread.reads.meta (List.mem_of_getElem? hs')
  have hcov' : s'.core.Covers p.lba := by
    rw [← hat.start]
    use Nat.le_refl _, hmeta.start_le_end hne
  exact ⟨(Movable.unique h hget hat.movable hs hcov hcov').2, s', hs', rfl⟩

/-- A source from which a block has been moved away. -/
theorem legible_leftRun {blank : Set ℕ} {r : Run δ} {j : ℕ} (h : r.Legible blank dev) :
  (Mm.leftRun r j).Legible blank dev
  := by
  constructor
  · intro ste hste
    obtain ⟨s, hs, rfl | rfl⟩ := Mm.mem_leftRun hste
    · apply h.written _ hs
    · apply (h.written s hs).congr rfl rfl
  · intro ste hste hcopied
    obtain ⟨s, hs, rfl | rfl⟩ := Mm.mem_leftRun hste
    · apply h.indexed _ hs hcopied
    · cases hcopied

theorem trivialMove_records {ridx j : ℕ} {mm : Mm δ} {p : Picked} {ste : Ste}
    (h : Sim g blocks st m) (hinv : m.Inv g range held dev₀) (hsorted : m.sorted = [])
    (hat : AtBlock g blocks st ridx j mm p ste) (hnodup : ste.lbas.Nodup)
    (hrec : st.Recorded g others) (hok : st.trivialMove g ridx = .ok st') :
  st.Records g others st'
  := by
  have hget := hat.picks.get
  have hread := h.mms mm (List.mem_of_getElem? hget)
  obtain ⟨s, _, _, _, _, _, _, _, _, _, hblock, hcore, hstart, -⟩ :=
    trivialMove_block h hsorted hat hok
  subst hcore
  obtain ⟨res, dev, mm₀, p₀, steNum, lbas, mm₁, ssi, sc, u, hpad, hget₀, hp, hste, hcollect, hmove,
    rfl⟩ := trivialMove_mf hok
  cases hget.symm.trans hget₀
  cases hat.picks.pick.symm.trans hp
  obtain ⟨rfl, -⟩ := targetSte_movable h hat hste
  have hs := hblock.get
  have hopen : st.res.Open g := h.res ▸ hinv.opened
  have hholds := hinv.holds
  rw [h.dev, h.res] at hholds
  have hclose := Run.paddingCurrentBlock_records hopen.ready hrec.res hpad
  obtain ⟨-, -, hnil, -⟩ := Run.paddingCurrentBlock_grows hopen hholds hpad
  have hsrc := hrec.srcs mm (List.mem_of_getElem? hget)
  rw [Mm.steAt_of_getElem? hs] at hcollect hmove ⊢
  obtain ⟨-, -, -, -, -, -, -, hrun, -⟩ := leave_ok hread hs hcollect hmove
  obtain ⟨e, l, hleft, hlba⟩ := left_cons_of_pick hread.reads hat.picks.pick
  have hlbas := collected_lbas hread hleft hs (hstart.trans hlba) hat.movable.sorted hnodup
    (fun k s' lba hk hcov' hcov => (Movable.unique h hget hat.movable hk hcov' hcov).2) hcollect
    hmove
  have hindexed : Ste.Indexed (taken st.sc mm₁.r.info u (movedMf res mm₁ lbas s) s) := by
    cases hdiffer : mm₁.ssi.differMap with
    | true =>
        use res.stBody.mapType, hclose.recorded.inMemory
        simp only [taken, movedSte, movedMf, hdiffer, if_true, hlbas]
        rfl
    | false =>
        obtain ⟨t, ht, hmf⟩ := hsrc.indexed s (List.mem_of_getElem? hs) hblock.copied
        use t, ht
        simp only [taken, movedSte, movedMf, hdiffer, Bool.false_eq_true, if_false]
        apply hmf
  have hwritten : (taken st.sc mm₁.r.info u (movedMf res mm₁ lbas s) s).Written
      (res.stBody.blank g others dev) dev :=
    ((hsrc.written s (List.mem_of_getElem? hs)).fills hclose.fills).congr rfl rfl
  have htake := hclose.trans (hclose.recorded.takeSte (n := lbas.length) hnil hwritten hindexed)
  refine ⟨⟨htake.recorded, ?_⟩, htake.fills⟩
  intro x hx
  rcases List.mem_or_eq_of_mem_set hx with hx | rfl
  · apply (hrec.srcs x hx).fills htake.fills
  · change (Mm.leftRun mm₁.r steNum).Legible _ _
    rw [hrun]
    apply legible_leftRun (hsrc.fills htake.fills)

/-! ### The rounds -/

theorem round_records {targetRound : ℕ} {force : Bool} (h : Sim g blocks st m)
    (hinv : m.Inv g range held dev₀) (hrange : range ≤ uint32Max)
    (hnodup : ∀ i j ste, Movable blocks i j ste → ste.lbas.Nodup) (hrec : st.Recorded g others)
    (hok : st.round g targetRound force = .ok st') :
  st.Records g others st'
  := by
  simp only [round, bind_eq_ok] at hok
  obtain ⟨⟨target, st₁⟩, hsort, st₂, hflush, hok⟩ := hok
  obtain ⟨m₁, hsteps₁, hsim₁, hat⟩ := sortingMmSet_ok (fun _ _ => False) _ h hsort
  obtain ⟨m₂, hsteps₂, hsim₂, hsorted, hmms⟩ := flushSorted_ok (fun _ _ => False) hsim₁ hflush
  have hinv₁ := hsteps₁.inv hrange hinv
  have hfirst := hrec.quiet (sortingMmSet_quiet _ hrec.res.placed.layout hsort)
  have hsecond := hfirst.trans (flushSorted_records hsim₁ hinv₁ hrange hfirst.recorded hflush)
  cases target with
  | none =>
      cases hok
      apply hsecond
  | some ridx =>
      obtain ⟨j, mm, p, ste, hat⟩ := hat ridx rfl
      have hat₂ : AtBlock g blocks st₂ ridx j mm p ste :=
        ⟨⟨hmms ▸ hat.picks.get, hat.picks.pick, hmms ▸ hat.picks.min⟩, hat.flag, hat.movable,
          hat.start⟩
      apply hsecond.trans (trivialMove_records hsim₂ (hsteps₂.inv hrange hinv₁) hsorted hat₂
        (hnodup ridx j ste hat.movable) hsecond.recorded hok)

theorem rounds_records {step : ℕ} {force : Bool} (hrange : range ≤ uint32Max)
    (hnodup : ∀ i j ste, Movable blocks i j ste → ste.lbas.Nodup) (fuel : ℕ) :
  ∀ {targetRound : ℕ} {st : MergeState δ} {m : Merging δ}, Sim g blocks st m →
    m.Inv g range held dev₀ → st.Recorded g others →
    rounds g step force fuel targetRound st = .ok st' → st.Records g others st'
  := by
  induction fuel with
  | zero =>
      intro targetRound st m _ _ _ hok
      cases hok
  | succ fuel ih =>
      intro targetRound st m h hinv hrec hok
      simp only [rounds, bind_eq_ok] at hok
      obtain ⟨st₁, hround, hok⟩ := hok
      have hfirst := round_records h hinv hrange hnodup hrec hround
      obtain ⟨m₁, hsteps, h₁, -⟩ := round_steps h hnodup hround
      split at hok
      · cases hok
        apply hfirst
      · apply hfirst.trans (ih h₁ (hsteps.inv hrange hinv) hfirst.recorded hok)

end MergeState

/-- At the beginning the target has written nothing. -/
theorem MergeState.start_recorded {others : Set ℕ} {rset : List (Run δ)} {idx n : ℕ}
    {sc : ShortcutMaster} {dev : Dev δ} {mapType : MapType} {force : Bool} {st : MergeState δ}
    (hin : MergeInputs g rset) (htype : mapType.InMemory) (hl : dev.Layout g)
    (hapart : ∀ q ∈ others, q ∉ dev.free g)
    (hsrcs : ∀ r ∈ rset, r.Legible (others ∪ dev.free g) dev)
    (hok : MergeState.start rset (Run.factory g mapType n .runNormal idx) force sc dev = .ok st) :
  st.Recorded g others ∧ st.res.stBody.blank g others st.dev = others ∪ dev.free g ∧ st.dev = dev
  := by
  simp only [MergeState.start, bind_eq_ok] at hok
  obtain ⟨mms, hmms, hret⟩ := hok
  cases hret
  have hblank : (Run.factory g mapType n .runNormal idx : Run δ).stBody.blank g others dev
      = others ∪ dev.free g := by
    rw [StArray.blank, StArray.blockRest_nil rfl, Set.empty_union]
  refine ⟨⟨Run.factory_recorded htype hl hapart, ?_⟩, hblank, rfl⟩
  intro mm hmm
  obtain ⟨i, hi⟩ := List.mem_iff_getElem?.mp hmm
  obtain ⟨x, hx, hmake⟩ := MergeState.forall₂_getElem? (mapM_eq_ok hmms) hi
  rw [List.getElem?_zipIdx] at hx
  obtain ⟨r, hr, rfl⟩ := Option.map_eq_some_iff.mp hx
  have hmem := List.mem_of_getElem? hr
  obtain ⟨hrun, -⟩ := makeMm_left hin hmem hmake
  rw [hrun]
  exact hblank ▸ hsrcs r hmem

/-- A merge into a new run leaves a run that can be read, and changes no piece that has been
written before. -/
theorem Mergeable.runMerge_records {range : ℕ} {held : List ℕ} {others : Set ℕ}
    {rset : List (Run δ)} {idx n : ℕ} {sc : ShortcutMaster} {dev : Dev δ} {mapType : MapType}
    {force : Bool} {st : MergeState δ} (h : Mergeable g range held rset idx sc dev)
    (hrange : range ≤ uint32Max) (htype : mapType.InMemory) (hl : dev.Layout g)
    (hapart : ∀ q ∈ others, q ∉ dev.free g)
    (hsrcs : ∀ r ∈ rset, r.Legible (others ∪ dev.free g) dev)
    (hok : AppL.runMerge g rset (Run.factory g mapType n .runNormal idx) force sc dev = .ok st) :
  st.res.Legible (others ∪ st.dev.free g) st.dev ∧ st.res.pp = Option.none ∧ st.dev.Layout g ∧
    FillsIn (others ∪ dev.free g) (others ∪ st.dev.free g) dev.cell st.dev.cell
  := by
  simp only [AppL.runMerge, bind_eq_ok] at hok
  obtain ⟨st₀, hstart, st₁, hrounds, ⟨res, dev'⟩, hdone, hret⟩ := hok
  cases hret
  obtain ⟨hsim, -⟩ := MergeState.start_ordered h.inputs h.none hstart
  rw [start_eq h.inputs hstart] at hsim
  have hinv := @Mergeable.beginning_inv _ _ _ _ _ _ _ _ mapType n h
  obtain ⟨hrec, hblank, hdev⟩ := MergeState.start_recorded h.inputs htype hl hapart hsrcs hstart
  have hmerge := MergeState.rounds_records hrange (fun _ _ _ => h.once.movable) _ hsim hinv hrec
    hrounds
  obtain ⟨m, hsteps, hsim₁, -⟩ := MergeState.rounds_steps (fun _ _ _ => h.once.movable) _ hsim
    hrounds
  have hopened : st₁.res.Open g := hsim₁.res ▸ (hsteps.inv hrange hinv).opened
  obtain ⟨hclose, hnil⟩ := Run.insertDone_records hopened.ready hmerge.recorded.res hdone
  have hfills := hmerge.fills.trans hclose.fills
  have hempty : res.stBody.blank g others dev' = others ∪ dev'.free g := by
    rw [StArray.blank, StArray.blockRest_nil hnil, Set.empty_union]
  rw [hempty, hblank, hdev] at hfills
  exact ⟨hempty ▸ hclose.recorded.legible, Run.insertDone_pp hdone,
    hclose.recorded.placed.layout, hfills⟩

end AppL
