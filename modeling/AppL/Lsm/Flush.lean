import AppL.Lsm.Memtable

/-!
# Flushing the memtable

In every state between two calls of `lsmtree_insert` the memtable is a log whose lbas have
owners.  When it is flushed, its iterator divides by the number of lbas for each entry of the
table.  This is a division by zero exactly when the memtable has more than one lba, but fewer
lbas than entries.
-/

namespace AppL

open Transition

variable {δ : Type} {g : Geometry}

/-- `run_recontstruct`. -/
def runRecontstruct (g : Geometry) (src des : Run δ) (force : Bool) (sc : ShortcutMaster)
    (dev : Dev δ) : Except Abort (MergeState δ) :=
  runMerge g [src] des force sc dev

/-! ### The memtable of a tree -/

namespace Lsmtree

variable {lsm lsm' : Lsmtree δ} {p : Param}

/-- Every lba of the memtable has an owner. -/
structure Filled (g : Geometry) (lsm : Lsmtree δ) (xs : List ℕ) : Prop where
  fills : lsm.memtable.Fills g xs
  owned : ∀ lba ∈ xs, lsm.sc.scMap lba ≠ none

/-- What holds in every state of a tree with parameters `p`. -/
structure Ready (g : Geometry) (p : Param) (lsm : Lsmtree δ) : Prop where
  param : lsm.param = p
  filled : lsm.phase = .idle → ∃ xs, lsm.Filled g xs

/-- What the end of a merge leaves as it is. -/
structure SameTable (lsm lsm' : Lsmtree δ) : Prop where
  param : lsm'.param = lsm.param
  phase : lsm'.phase = lsm.phase
  memtable : lsm'.memtable = lsm.memtable
  owned : lsm.sc.KeepsOwned lsm'.sc

theorem SameTable.refl (lsm : Lsmtree δ) :
  lsm.SameTable lsm
  := ⟨rfl, rfl, rfl, .refl _⟩

theorem SameTable.trans {lsm'' : Lsmtree δ} (h : lsm.SameTable lsm')
    (h' : lsm'.SameTable lsm'') :
  lsm.SameTable lsm''
  where
    param := h'.param.trans h.param
    phase := h'.phase.trans h.phase
    memtable := h'.memtable.trans h.memtable
    owned := h.owned.trans h'.owned

theorem Ready.same (h : lsm.Ready g p) (hs : lsm.SameTable lsm') :
  lsm'.Ready g p
  := by
  constructor
  · rw [hs.param, h.param]
  · intro hphase
    obtain ⟨xs, hfills, howned⟩ := h.filled (hs.phase ▸ hphase)
    use xs, hs.memtable ▸ hfills
    intro lba hlba
    apply hs.owned lba (howned lba hlba)

theorem freeRun_same {r : Run δ} (h : lsm.freeRun g r = .ok lsm') :
  lsm.SameTable lsm'
  := by
  simp only [freeRun, Run.free, bind_eq_ok] at h
  obtain ⟨x, ⟨dev, -, hx⟩, hret⟩ := h
  cases hx
  cases hret
  use rfl, rfl, rfl, .refl _

theorem freeRuns_same {rs : List (Run δ)} (h : rs.foldlM (freeRun g) lsm = .ok lsm') :
  lsm.SameTable lsm'
  := by
  apply foldlM_invariant (fun _ l => lsm.SameTable l) _ (.refl lsm) h
  intro r _ l l' hl hr
  apply hl.trans (freeRun_same hr)

/-- A merge takes no lba away without giving it to another run. -/
theorem runMerge_owned {rset : List (Run δ)} {target : Run δ} {force : Bool}
    {sc : ShortcutMaster} {dev : Dev δ} {st : MergeState δ}
    (h : runMerge g rset target force sc dev = .ok st) :
  sc.KeepsOwned st.sc
  := by
  have hm : Meets (fun _ => True) (fun st : MergeState δ => sc.KeepsOwned st.sc)
      (runMerge g rset target force sc dev) := by
    apply runMerge_meets fun _ _ => trivial
    intro x _
    cases MergeState.makeMm target _ x with
    | error _ => trivial
    | ok mm => exact .inl (.inl trivial)
  rw [h] at hm
  apply hm

theorem addRun_owned {sc sc' : ShortcutMaster} {level idx : ℕ}
    (h : sc.addRun level = .ok (idx, sc')) :
  sc.KeepsOwned sc'
  := by
  unfold ShortcutMaster.addRun at h
  split at h
  · cases h
  · split at h
    · cases h
    · cases h
      exact .refl _

theorem rebuild_same {pos : ℕ} (h : lsm.rebuild g pos = .ok lsm') :
  lsm.SameTable lsm'
  := by
  simp only [rebuild, bind_eq_ok, orThrow_eq_ok] at h
  obtain ⟨lev, -, src, -, ⟨target, sc⟩, hpop, st, hmerge, lev', -, hfree⟩ := h
  simp only [populateNormal, bind_eq_ok] at hpop
  obtain ⟨⟨idx, sc'⟩, hadd, hret⟩ := hpop
  cases hret
  apply SameTable.trans _ (freeRuns_same hfree)
  use rfl, rfl, rfl, (addRun_owned hadd).trans (runMerge_owned hmerge)

/-! ### The steps -/

theorem Filled.write {xs : List ℕ} {lba : ℕ} {d : δ} (h : lsm.Filled g xs)
    (hrange : lsm.param.range ≤ uint32Max) (hw : lsm.write g lba d = .ok lsm') :
  lsm'.param = lsm.param ∧ ∃ ys, lsm'.Filled g ys
  := by
  simp only [Lsmtree.write, bind_eq_ok, require_eq_ok] at hw
  obtain ⟨-, -, -, hlt, ⟨r, sc, dev⟩, hins, hret⟩ := hw
  cases hret
  refine ⟨rfl, ?_⟩
  simp only [Run.insert, h.fills.log.type, bind_eq_ok, require_eq_ok] at hins
  obtain ⟨-, -, hins⟩ := hins
  obtain ⟨hkeeps, htakes⟩ := lsm.sc.validityCheckAndLink_owned lsm.memtable.info
    lsm.memtable.info lba
  split at hins
  · rename_i hvalid
    rw [bind_eq_ok] at hins
    obtain ⟨⟨r', dev'⟩, hsec, hret⟩ := hins
    cases hret
    use xs ++ [lba], (h.fills.insertSector (by omega) hsec).1
    intro l hl
    rcases List.mem_append.mp hl with hl | hl
    · apply hkeeps l (h.owned l hl)
    · rw [List.mem_singleton.mp hl, htakes hvalid]
      apply Option.some_ne_none _
  · cases hins
    use xs, h.fills, fun l hl => hkeeps l (h.owned l hl)

theorem Ready.step {op : LsmOp δ} (h : lsm.Ready g p) (hrange : p.range ≤ uint32Max)
    (hstep : lsm.step g op = .ok lsm') :
  lsm'.Ready g p
  := by
  cases op with
  | write lba d =>
      have hstep : lsm.write g lba d = .ok lsm' := hstep
      obtain ⟨xs, hxs⟩ := h.filled (by
        simp only [Lsmtree.write, bind_eq_ok, require_eq_ok] at hstep
        exact hstep.choose_spec.1.1)
      obtain ⟨hparam, hys⟩ := hxs.write (h.param ▸ hrange) hstep
      use hparam.trans h.param, fun _ => hys
  | flush =>
      simp only [Lsmtree.step, Lsmtree.flush, bind_eq_ok] at hstep
      obtain ⟨_, -, _, -, _, -, _, -, _, -, _, -, hret⟩ := hstep
      cases hret
      use h.param
      intro hidle
      cases hidle
  | compact first second =>
      simp only [Lsmtree.step, Lsmtree.compact] at hstep
      split at hstep
      · rw [bind_eq_ok] at hstep
        obtain ⟨lev, -, hstep⟩ := hstep
        split at hstep
        · simp only [compactLevel, bind_eq_ok] at hstep
          obtain ⟨_, -, _, -, _, -, _, -, _, -, hfree⟩ := hstep
          have hsame := freeRuns_same hfree
          use hsame.param.trans h.param
          intro hidle
          rw [hsame.phase] at hidle
          dsimp only at hidle
          split at hidle
          · cases hidle
          · cases hidle
        · cases hstep
          use h.param
          intro hidle
          cases hidle
      · cases hstep
  | force pos =>
      simp only [Lsmtree.step, Lsmtree.force, bind_eq_ok] at hstep
      obtain ⟨-, -, hrebuild⟩ := hstep
      apply h.same (rebuild_same hrebuild)
  | finish =>
      simp only [Lsmtree.step, Lsmtree.finish, bind_eq_ok] at hstep
      obtain ⟨-, -, lsm₁, hfree, ⟨memtable, sc⟩, hpop, hret⟩ := hstep
      simp only [populateLog, bind_eq_ok] at hpop
      obtain ⟨⟨idx, sc'⟩, -, hpop⟩ := hpop
      cases hpop
      cases hret
      exact ⟨(freeRun_same hfree).param.trans h.param,
        fun _ => ⟨[], Run.fills_factory, List.forall_mem_nil _⟩⟩
  | cleanLastLevel pos =>
      simp only [Lsmtree.step, Lsmtree.cleanLastLevel, bind_eq_ok] at hstep
      obtain ⟨-, -, hrebuild⟩ := hstep
      apply h.same (rebuild_same hrebuild)

theorem ready_init {blank : δ} (h : init g p blank = .ok lsm) :
  lsm.Ready g p
  := by
  simp only [init, populateLog, bind_eq_ok] at h
  obtain ⟨⟨memtable, sc⟩, ⟨⟨idx, sc'⟩, -, hpop⟩, hret⟩ := h
  cases hpop
  cases hret
  use rfl, fun _ => ⟨[], Run.fills_factory, List.forall_mem_nil _⟩

theorem ready_exec {blank : δ} {ops : List (LsmOp δ)} (hrange : p.range ≤ uint32Max)
    (h : exec g p blank ops = .ok lsm) :
  lsm.Ready g p
  := by
  simp only [exec, bind_eq_ok] at h
  obtain ⟨lsm₀, hinit, hrun⟩ := h
  apply run_history (fun _ l => l.Ready g p) _ (ready_init hinit) hrun
  intro _ l op l' hl hstep
  apply hl.step hrange hstep

end Lsmtree

/-! ### A memtable with one lba, or with enough of them -/

/-- `sp_set_iter_init_mf`, without the division. -/
def SpSetIter.ofLog (r : Run δ) (targetMapType : MapType) : SpSetIter where
  type := .runLog
  maxSteNum := r.stBody.nowSteNum
  nowSteNum := 0
  pages := []
  tree := r.runLogMf
  stePerEnt := r.runLogMf.length / r.stBody.nowSteNum
  miterPickCnt := 0
  differMap := r.stBody.mapType != targetMapType
  noncopyIdx := 0
  noncopyLba := []
  noncopyFlag := []

theorem SpSetIter.init_log {r : Run δ} {mapType : MapType} (htype : r.type = .runLog)
    (hne : r.stBody.nowSteNum ≠ 0) :
  SpSetIter.init r mapType = .ok (.ofLog r mapType)
  := by
  simp only [init, ofLog, htype]
  exact bind_eq_ok.mpr ⟨(), require_eq_ok.mpr hne, rfl⟩

namespace Run.LogDone

variable {r : Run δ}

theorem steAt_mem {sa : StArray} {j : ℕ} (hj : j < sa.stes.length) :
  sa.steAt j ∈ sa.stes
  := by
  rw [StArray.steAt, List.getElem?_eq_getElem hj, Option.getD_some]
  apply List.getElem_mem hj

/-- The block that the tree names for an lba covers it. -/
theorem covers {x : ℕ × ℕ} (h : r.LogDone g) (hx : x ∈ r.runLogMf) :
  x.2 / g.maxSectorInBlock < r.stBody.stes.length ∧
    (r.stBody.steAt (x.2 / g.maxSectorInBlock)).Covers x.1
  := by
  obtain ⟨p, hp, hlba⟩ := h.pair_of_mem hx
  obtain ⟨ste, hste, hpage⟩ := h.paged _ p hp
  have hmem := List.mem_of_getElem? hpage
  rw [steAt_eq hste]
  rw [List.getElem?_append] at hste
  split at hste
  · rename_i hlt
    use hlt
    rw [← hlba]
    apply (h.stes ste (List.mem_of_getElem? hste)).1.covers hmem
  · rw [List.mem_singleton.mp (List.mem_of_getElem? hste), h.nil] at hmem
    cases hmem

/-- Each lba of a block is in the tree. -/
theorem exists_mem_tree {ste : Ste} {p : SummaryPair} (h : r.LogDone g)
    (hste : ste ∈ r.stBody.stes) (hp : p ∈ ste.page) :
  ∃ x ∈ r.runLogMf, x.1 = p.lba
  := by
  have hlba : p.lba ∈ r.pairs.map (·.lba) := by
    apply List.mem_map_of_mem
    apply List.mem_flatMap.mpr
    use ste, List.mem_append_left _ hste, hp
  obtain ⟨k, hk⟩ := exists_isLast hlba
  exact ⟨(p.lba, k), (h.last (p.lba, k)).mpr hk, rfl⟩

/-- Each block covers an lba of the tree. -/
theorem exists_covered {ste : Ste} (h : r.LogDone g) (hste : ste ∈ r.stBody.stes) :
  ∃ x ∈ r.runLogMf, ste.Covers x.1
  := by
  obtain ⟨hmeta, hne, -⟩ := h.stes ste hste
  obtain ⟨p, hp⟩ := List.exists_mem_of_ne_nil _ hne
  obtain ⟨x, hx, hlba⟩ := h.exists_mem_tree hste hp
  exact ⟨x, hx, hlba ▸ hmeta.covers hp⟩

/-- Of the blocks that cover an lba, one can be moved only when it is the only one. -/
theorem selected_eq {y : ℕ × ℕ} {j lba : ℕ} (h : r.LogDone g)
    (hy : y ∈ MergeState.checkDisjoint [r] (MergeState.allBlocks [r]) [] [])
    (hcov : (r.stBody.steAt y.2).Covers lba) (hj : j < r.stBody.stes.length)
    (hcov' : (r.stBody.steAt j).Covers lba) :
  y = (0, j)
  := by
  obtain ⟨r', hr', hlt, hmov⟩ := MergeState.checkDisjoint_movable (.inr ⟨r, rfl, h.type⟩) hy
  obtain ⟨i, j'⟩ := y
  cases i with
  | succ i => simp at hr'
  | zero =>
      obtain rfl : r = r' := Option.some.inj hr'
      by_cases hne : j = j'
      · rw [hne]
      · exfalso
        have hste : (r.stBody.stes.map Ste.core)[j]? = some (r.stBody.steAt j).core := by
          rw [List.getElem?_map, StArray.steAt, List.getElem?_eq_getElem hj]
          rfl
        have hap := hmov.apart 0 r.type _ j _ rfl hste (.inr hne)
        apply hap.not_covers hcov' hcov

/-- An lba at which the first block to be moved begins lies in this block. -/
theorem flag_of_check {blocks : List (ℕ × ℕ)} {ssi : SpSetIter} {j lba : ℕ} (h : r.LogDone g)
    (hblocks : blocks = MergeState.checkDisjoint [r] (MergeState.allBlocks [r]) [] [])
    (hj : j < r.stBody.stes.length) (hcov : (r.stBody.steAt j).Covers lba)
    (hidx : ssi.noncopyIdx = 0)
    (hlbas : ssi.noncopyLba = (blocks.filter fun b => b.1 = 0).map fun b =>
      ((r.stBody.steAt b.2).startLba, (r.stBody.steAt b.2).endLba))
    (hcheck : ssi.noncopyCheck lba = true) :
  j ∈ (blocks.filter fun b => b.1 = 0).map (·.2)
  := by
  rw [SpSetIter.noncopyCheck, hidx, hlbas] at hcheck
  cases hhead : blocks.filter fun b => b.1 = 0 with
  | nil =>
      rw [hhead] at hcheck
      cases hcheck
  | cons b l =>
      have hb : b ∈ blocks := by
        apply List.mem_of_mem_filter (p := fun b => b.1 = 0)
        rw [hhead]
        apply List.mem_cons_self
      have hstart : (r.stBody.steAt b.2).startLba = lba := by
        rw [hhead] at hcheck
        simpa using hcheck
      rw [hblocks] at hb
      obtain ⟨r', hr', hlt, -⟩ := MergeState.checkDisjoint_movable (.inr ⟨r, rfl, h.type⟩) hb
      obtain rfl : r = r' := (List.mem_singleton.mp (List.mem_of_getElem? hr')).symm
      have hcov' : (r.stBody.steAt b.2).Covers lba := by
        rw [← hstart]
        obtain ⟨hmeta, hne, -⟩ := h.stes _ (steAt_mem hlt)
        obtain ⟨p, hp, heq⟩ := hmeta.start_mem hne
        rw [← heq]
        apply hmeta.covers hp
      rw [h.selected_eq hb hcov' hj hcov]
      apply List.mem_cons_self

/-- No block can be moved when there are several blocks and all have the same lba. -/
theorem checkDisjoint_eq_nil {x : ℕ × ℕ} (h : r.LogDone g) (htree : r.runLogMf = [x])
    (hlt : 1 < r.stBody.nowSteNum) :
  MergeState.checkDisjoint [r] (MergeState.allBlocks [r]) [] [] = []
  := by
  have hall : ∀ {j : ℕ}, j < r.stBody.stes.length → (r.stBody.steAt j).Covers x.1 := by
    intro j hj
    obtain ⟨z, hz, hcov⟩ := h.exists_covered (steAt_mem hj)
    rw [htree, List.mem_singleton] at hz
    exact hz ▸ hcov
  apply List.eq_nil_iff_forall_not_mem.mpr
  intro y hy
  obtain ⟨r', hr', hy₂, -⟩ := MergeState.checkDisjoint_movable (.inr ⟨r, rfl, h.type⟩) hy
  obtain rfl : r = r' := (List.mem_singleton.mp (List.mem_of_getElem? hr')).symm
  have h₀ := h.selected_eq hy (hall hy₂) (Nat.lt_of_succ_lt hlt) (hall (Nat.lt_of_succ_lt hlt))
  have h₁ := h.selected_eq hy (hall hy₂) hlt (hall hlt)
  rw [h₀] at h₁
  cases h₁

/-- The iterator over the tree begins without harm, when it can divide or has one pair. -/
theorem makeMm_meets {target : Run δ} {E : Abort → Prop} (hE : ∀ e, e ≠ .divByZero → E e)
    (h : r.LogDone g)
    (hnum : r.runLogMf.length = 1 ∨ r.stBody.nowSteNum ≤ r.runLogMf.length) :
  Meets E (fun mm => mm.ssi.Safe E)
    (MergeState.makeMm target (MergeState.checkDisjoint [r] (MergeState.allBlocks [r]) [] [])
      (r, 0))
  := by
  by_cases hne : r.stBody.nowSteNum = 0
  · have hfail : SpSetIter.init r target.stBody.mapType = .error .divByNoSte := by
      simp only [SpSetIter.init, h.type, hne]
      rfl
    rw [MergeState.makeMm, hfail]
    apply hE _ (by decide)
  · rw [MergeState.makeMm, SpSetIter.init_log h.type hne]
    change SpSetIter.Safe E (MergeState.markDisjoint ..)
    rw [MergeState.markDisjoint_eq]
    by_cases hle : r.stBody.nowSteNum ≤ r.runLogMf.length
    · left
      right
      apply Nat.ne_of_gt (Nat.div_pos hle (Nat.pos_of_ne_zero hne))
    · right
      have hone : r.runLogMf.length = 1 := by omega
      obtain ⟨x, hx⟩ := List.length_eq_one_iff.mp hone
      rw [h.checkDisjoint_eq_nil hx (by omega)]
      exact ⟨Nat.le_of_eq hone, rfl⟩

end Run.LogDone

/-! ### A memtable with too few lbas -/

/-- Lbas that have owners are taken over, and what comes then may fail. -/
theorem ShortcutMaster.linkBulkLba_fails {α : Type} {idx : ℕ} {e : Abort}
    {f : ShortcutMaster → Except Abort α} (hf : ∀ sc, f sc = .error e) (lbas : List ℕ) :
  ∀ {sc : ShortcutMaster}, (∀ lba ∈ lbas, sc.scMap lba ≠ none) →
    sc.linkBulkLba idx lbas >>= f = .error e
  := by
  induction lbas with
  | nil =>
      intro sc _
      apply hf sc
  | cons lba lbas ih =>
      intro sc h
      obtain ⟨owner, howner⟩ := Option.ne_none_iff_exists'.mp (h lba List.mem_cons_self)
      obtain ⟨sc₁, hone, hkeeps⟩ : ∃ sc₁, linkBulkOne idx sc lba = .ok sc₁ ∧
          sc.KeepsOwned sc₁ := by
        simp only [linkBulkOne, howner]
        exact ⟨_, rfl, keepsOwned_update rfl⟩
      have hrest := ih fun l hl => hkeeps l (h l (List.mem_cons_of_mem _ hl))
      rw [linkBulkLba, List.foldlM_cons, bind_assoc]
      apply fails_right hone hrest

/-- The iterator of a memtable that begins with a pair `x`, has another one behind it, and
divides by zero when it goes past `x`. -/
structure Mm.Stuck (mm : Mm δ) (x : ℕ × ℕ) : Prop where
  log : mm.r.type = .runLog
  type : mm.ssi.type = .runLog
  tree : ∃ y t, mm.ssi.tree = x :: y :: t
  divisor : mm.ssi.stePerEnt = 0
  now : mm.ssi.nowSteNum ≠ mm.ssi.maxSteNum
  done : mm.done = false
  lookup : mm.r.runLogMf.lookup x.1 = some x.2

namespace Mm.Stuck

variable {mm : Mm δ} {x : ℕ × ℕ}

theorem moveIterTarget (h : mm.Stuck x) :
  mm.moveIterTarget = .error .divByZero
  := by
  obtain ⟨y, t, htree⟩ := h.tree
  simp only [Mm.moveIterTarget, h.done, SpSetIter.move, h.type, htree, List.tail_cons,
    if_neg h.now, SpSetIter.countPick, h.divisor]
  rfl

theorem pick (h : mm.Stuck x) :
  mm.pick g
    = some ⟨x.1, mm.r.stBody.convertGlobalOffsetToPsa g x.2, uint32Max, x.2⟩
  := by
  obtain ⟨y, t, htree⟩ := h.tree
  simp only [Mm.pick, SpSetIter.pick, h.type, htree]

/-- An entry is invalidated without a check. -/
theorem invalidateTarget (h : mm.Stuck x) (dev : Dev δ) (psa n : ℕ) :
  ∃ dev', mm.invalidateTarget g dev x.1 psa false n = .ok dev'
  := by
  obtain ⟨dev', hdev⟩ : ∃ dev', dev.invalidatePiecePpa g .bitError
      (mm.r.stBody.convertGlobalOffsetToPsa g x.2) false = .ok dev' := by
    simp only [Dev.invalidatePiecePpa, Bool.false_eq_true, and_false, if_false]
    exact ⟨_, rfl⟩
  refine ⟨dev', bind_eq_ok.mpr ⟨_, ?_, hdev⟩⟩
  simp only [Mm.originalPsa, h.log, h.lookup]
  rfl

end Mm.Stuck

namespace MergeState

variable {st : MergeState δ} {mm : Mm δ} {x : ℕ × ℕ}

/-- The first pair of the memtable is old, or it is picked. -/
theorem pickSmallestPair_stuck (h : mm.Stuck x) (hmms : st.mms = [mm]) (fuel : ℕ) :
  pickSmallestPair g (fuel + 1) st = .error .divByZero ∨
    ∃ p, mm.pick g = some p ∧ p.lba = x.1 ∧
      pickSmallestPair g (fuel + 1) st = .ok (some (0, p), st)
  := by
  obtain ⟨dev, hdev⟩ := h.invalidateTarget (g := g) st.dev
    (mm.r.stBody.convertGlobalOffsetToPsa g x.2) mm.ssi.nowSteNum
  have hpick : pickSmallest g 0 [mm]
      = some (0, ⟨x.1, mm.r.stBody.convertGlobalOffsetToPsa g x.2, uint32Max, x.2⟩) := by
    simp only [pickSmallest, h.done, h.pick]
    rfl
  unfold pickSmallestPair
  rw [hmms, hpick]
  dsimp only
  rw [List.getElem?_cons_zero]
  by_cases hold : mm.isOld st.sc
      ⟨x.1, mm.r.stBody.convertGlobalOffsetToPsa g x.2, uint32Max, x.2⟩ = true
  · left
    change (if _ then _ else _) = _
    rw [if_pos hold]
    simp only [skipOld, hmms, List.getElem?_cons_zero, orThrow, bind, Except.bind, hdev,
      h.moveIterTarget]
  · right
    refine ⟨_, h.pick, rfl, ?_⟩
    change (if _ then _ else _) = _
    rw [if_neg hold]
    rfl

/-- The first pair cannot be sorted. -/
theorem push_stuck (h : mm.Stuck x) (hmms : st.mms = [mm]) {p : Picked}
    (hp : mm.pick g = some p) :
  st.push g 0 p = .error .divByZero
  := by
  simp only [push, hmms, moveIter, h.done, hp, orThrow, dropOther, bind, Except.bind,
    h.moveIterTarget]
  rfl

/-- The target of a merge before anything is written to it. -/
structure Fresh (res : Run δ) : Prop where
  pp : res.pp = none
  writing : res.stBody.writing = false
  lt : res.stBody.nowSteNum < res.stBody.maxSteNum

/-- The source stands at the first pair of the block `j`, which is one of those to be moved. -/
structure AtMoved (mm : Mm δ) (x : ℕ × ℕ) (j : ℕ) : Prop where
  idx : x.2 / g.maxSectorInBlock = j
  flag : j ∈ mm.ssi.noncopyFlag
  le : x.1 ≤ (mm.r.stBody.steAt j).endLba

/-- The block of the first pair cannot be moved. -/
theorem trivialMove_stuck {j : ℕ} (h : mm.Stuck x) (hmms : st.mms = [mm])
    (hres : Fresh st.res) (hat : AtMoved (g := g) mm x j) (howned : st.sc.scMap x.1 ≠ none) :
  st.trivialMove g 0 = .error .divByZero
  := by
  obtain ⟨y, t, htree⟩ := h.tree
  have hpad : st.res.paddingCurrentBlock g st.dev = .ok (st.res, st.dev) := by
    refine bind_eq_ok.mpr ⟨(st.res, st.dev), ?_, bind_eq_ok.mpr
      ⟨(false, st.res.stBody), ?_, rfl⟩⟩
    · simp only [Run.flushBuffer, hres.pp]
    · simp [StArray.forceSkipBlock, Nat.not_le_of_lt hres.lt, hres.writing]
  have hste : targetSte g mm x.1 = some j := by
    simp only [targetSte, h.log, htree, List.head?_cons, Option.map_some, hat.idx]
  apply fails_right hpad
  apply fails_right (orThrow_eq_ok.mpr (by rw [hmms, List.getElem?_cons_zero]))
  apply fails_right (orThrow_eq_ok.mpr h.pick)
  apply fails_right (orThrow_eq_ok.mpr hste)
  by_cases hend : x.1 = (mm.r.stBody.steAt j).endLba
  · have hlbas : collectLbas g (mm.r.stBody.steAt j).endLba (mm.ssi.remaining + 1) mm
        = .ok ([x.1], mm) := by
      refine bind_eq_ok.mpr ⟨_, orThrow_eq_ok.mpr h.pick, ?_⟩
      rw [if_pos hend]
      rfl
    apply fails_right hlbas
    apply ShortcutMaster.linkBulkLba_fails
    · intro sc
      apply fails_left
      apply fails_right ((require_eq_ok (u := ())).mpr hat.flag)
      simp only [h.type, htree, SpSetIter.dropTree]
      rw [if_pos hat.le]
      apply fails_left
      apply fails_left
      simp only [require, h.divisor]
      rfl
    · intro lba hlba
      rw [List.mem_singleton.mp (List.mem_of_mem_filter hlba)]
      apply howned
  · apply fails_left
    apply fails_right (orThrow_eq_ok.mpr h.pick)
    rw [if_neg hend]
    apply fails_left h.moveIterTarget

/-- The first round of a merge of a memtable with too few lbas. -/
theorem round_stuck {j targetRound : ℕ} {force : Bool} (h : mm.Stuck x) (hmms : st.mms = [mm])
    (hproc : mm.nowProcBlockIdx < targetRound) (hres : Fresh st.res)
    (hat : mm.ssi.noncopyCheck x.1 = true → AtMoved (g := g) mm x j)
    (howned : st.sc.scMap x.1 ≠ none) (hnil : st.sortedArr = []) :
  st.round g targetRound force = .error .divByZero
  := by
  have hgo : ¬ st.mms.all (fun mm => mm.done || targetRound ≤ mm.nowProcBlockIdx) = true := by
    rw [hmms]
    simp [h.done, hproc]
  rcases pickSmallestPair_stuck (g := g) h hmms st.remaining with hfail | ⟨p, hp, hlba, hpick⟩
  · apply fails_left
    unfold sortingMmSet
    rw [if_neg hgo]
    apply fails_left hfail
  · have hcheck : st.noncopyCheck 0 p.lba = mm.ssi.noncopyCheck x.1 := by
      simp only [noncopyCheck, hmms, List.getElem?_cons_zero, Option.any_some, hlba]
    cases hc : !force && mm.ssi.noncopyCheck x.1 with
    | false =>
        apply fails_left
        unfold sortingMmSet
        rw [if_neg hgo]
        apply fails_right hpick
        dsimp only
        rw [hcheck, hc, if_neg (by decide)]
        apply fails_right ((require_eq_ok (u := ())).mpr rfl)
        apply fails_left (push_stuck h hmms hp)
    | true =>
        have hsort : sortingMmSet g targetRound (!force) (st.remaining + 2) none st
            = .ok (some 0, st.noncopyNext 0) := by
          unfold sortingMmSet
          rw [if_neg hgo]
          refine bind_eq_ok.mpr ⟨_, hpick, ?_⟩
          dsimp only
          rw [hcheck, hc, if_pos (by decide)]
          rfl
        have hflush : (st.noncopyNext 0).flushSorted g = .ok (st.noncopyNext 0) :=
          if_pos hnil
        have hmms' : (st.noncopyNext 0).mms
            = [{ mm with ssi := { mm.ssi with noncopyIdx := mm.ssi.noncopyIdx + 1 } }] := by
          simp only [noncopyNext, hmms]
          rfl
        apply fails_right hsort
        apply fails_right hflush
        obtain ⟨hidx, hflag, hle⟩ := hat (Bool.and_eq_true_iff.mp hc).2
        apply trivialMove_stuck (j := j) (x := x) _ hmms' hres _ howned
        · use h.log, h.type, h.tree, h.divisor, h.now, h.done, h.lookup
        · use hidx, hflag, hle

end MergeState

/-- A memtable with too few lbas cannot be merged. -/
theorem Run.LogDone.runMerge_fails {r target : Run δ} {force : Bool} {sc : ShortcutMaster}
    {dev : Dev δ} (h : r.LogDone g) (htwo : 2 ≤ r.runLogMf.length)
    (hlt : r.runLogMf.length < r.stBody.nowSteNum) (hres : MergeState.Fresh target)
    (howned : ∀ x ∈ r.runLogMf, sc.scMap x.1 ≠ none) :
  runMerge g [r] target force sc dev = .error .divByZero
  := by
  obtain ⟨x, y, t, htree⟩ : ∃ x y t, r.runLogMf = x :: y :: t := by
    obtain ⟨x, l, hl⟩ := List.exists_cons_of_length_pos (Nat.lt_of_succ_lt htwo)
    rw [hl, List.length_cons] at htwo
    obtain ⟨y, t, ht⟩ := List.exists_cons_of_length_pos (Nat.lt_of_succ_lt_succ htwo)
    use x, y, t, ht ▸ hl
  have hx : x ∈ r.runLogMf := htree ▸ List.mem_cons_self
  obtain ⟨hj, hcov⟩ := h.covers hx
  have hne : r.stBody.nowSteNum ≠ 0 := by omega
  obtain ⟨blocks, hblocks⟩ : ∃ blocks,
      blocks = if force then [] else
        MergeState.checkDisjoint [r] (MergeState.allBlocks [r]) [] [] := ⟨_, rfl⟩
  have hdiv : r.runLogMf.length / r.stBody.nowSteNum = 0 := Nat.div_eq_of_lt hlt
  have hstuck : Mm.Stuck (⟨r, MergeState.markDisjoint 0 r blocks
      (.ofLog r target.stBody.mapType), 0, false⟩ : Mm δ) x := by
    rw [MergeState.markDisjoint_eq]
    refine ⟨h.type, rfl, ⟨y, t, htree⟩, hdiv, hne.symm, rfl, ?_⟩
    rw [htree]
    apply if_pos rfl
  have hstart : MergeState.start [r] target force sc dev
      = .ok ⟨[⟨r, MergeState.markDisjoint 0 r blocks (.ofLog r target.stBody.mapType), 0,
        false⟩], target, sc.setCompactionFlag r.info true, dev, []⟩ := by
    refine bind_eq_ok.mpr ⟨_, ?_, rfl⟩
    rw [List.zipIdx_cons, List.zipIdx_nil, List.mapM_cons, List.mapM_nil]
    refine bind_eq_ok.mpr ⟨_, ?_, rfl⟩
    refine bind_eq_ok.mpr ⟨_, SpSetIter.init_log h.type hne, ?_⟩
    rw [hblocks]
    rfl
  apply fails_right hstart
  apply fails_left
  apply fails_left
  apply MergeState.round_stuck (j := x.2 / g.maxSectorInBlock) hstuck rfl _ hres _ (howned x hx)
    rfl
  · have := g.bps_pos
    cases force with
    | false =>
        rw [MergeState.roundStep, if_neg (by decide), List.length_singleton, Nat.div_one]
        dsimp only
        omega
    | true =>
        change 0 < 0 + r.stBody.nowSteNum
        omega
  · intro hcheck
    refine ⟨rfl, ?_, hcov.2⟩
    rw [MergeState.markDisjoint_eq] at hcheck ⊢
    cases force with
    | false => apply h.flag_of_check hblocks hj hcov rfl rfl hcheck
    | true =>
        rw [hblocks] at hcheck
        cases hcheck

/-! ### The flush -/

/-- The lbas of the sectors that have been written to a log, in the order of the writes. -/
def Run.writtenLbas (r : Run δ) : List ℕ := r.pairs.map (·.lba) ++ r.buffered.map (·.1)

/-- The target of the flush of a memtable that is not empty. -/
theorem fresh_factory {mapType : MapType} {n idx : ℕ} (hn : 0 < n) :
  MergeState.Fresh (Run.factory g mapType n .runNormal idx : Run δ)
  := by
  refine ⟨rfl, rfl, ?_⟩
  have hpos := g.maxSectorInBlock_pos
  have hdiv : 0 < (n + g.maxSectorInBlock - 1) / g.maxSectorInBlock :=
    Nat.div_pos (by omega) hpos
  change 0 < (n + g.maxSectorInBlock - 1) / g.maxSectorInBlock * 2
  omega

/-- The flush of a full memtable does not divide by zero exactly when the memtable has only one
lba, or at least as many lbas as its sorted table has entries. -/
theorem flush_divides {p : Param} {blank : δ} {ops : List (LsmOp δ)} {lsm : Lsmtree δ}
    {mapType : MapType} {r target : Run δ} {sc : ShortcutMaster} {dev : Dev δ}
    (hrange : p.range ≤ uint32Max) (hexec : Lsmtree.exec g p blank ops = .ok lsm)
    (hphase : lsm.phase = .idle ∧ lsm.memtable.isFull = true)
    (hdone : lsm.memtable.insertDone g lsm.dev = .ok (r, dev))
    (hpop : Lsmtree.populateNormal g lsm.param lsm.sc mapType r.nowEntryNum 1
      = .ok (target, sc)) :
  runRecontstruct g r target false sc dev ≠ .error .divByZero ↔
    lsm.memtable.writtenLbas.toFinset.card = 1 ∨
      Run.blockNum g lsm.memtable.nowEntryNum ≤ lsm.memtable.writtenLbas.toFinset.card
  := by
  obtain ⟨xs, hfills, howned⟩ := (Lsmtree.ready_exec hrange hexec).filled hphase.1
  obtain ⟨hlog, hpairs, hnum, hste⟩ := hfills.insertDone hdone
  have hlbas : lsm.memtable.writtenLbas = xs := hfills.lbas
  have htree := hlog.length_tree
  rw [hpairs] at htree
  rw [hlbas, hfills.num, ← htree, ← hste]
  simp only [Lsmtree.populateNormal, bind_eq_ok] at hpop
  obtain ⟨⟨idx, sc'⟩, hadd, hret⟩ := hpop
  cases hret
  constructor
  · intro hne
    by_contra hfew
    apply hne
    have htwo : 2 ≤ r.runLogMf.length := by
      have hpos : 0 < r.stBody.nowSteNum := by omega
      obtain ⟨x, hx, -⟩ := hlog.exists_covered (Run.LogDone.steAt_mem hpos)
      have := List.length_pos_of_mem hx
      omega
    apply hlog.runMerge_fails htwo (by omega)
    · apply fresh_factory
      rw [hnum]
      have := List.toFinset_card_le xs
      omega
    · intro x hx
      apply Lsmtree.addRun_owned hadd
      apply howned
      rw [← hpairs]
      apply List.mem_of_getElem? ((hlog.last x).mp hx).1
  · intro henough hfail
    have hmeets : Meets (· ≠ .divByZero) (fun st : MergeState δ => sc'.KeepsOwned st.sc)
        (runMerge g [r] (Run.factory g (Lsmtree.normalMapType lsm.param mapType)
          r.nowEntryNum .runNormal idx) false sc' dev) := by
      apply runMerge_meets fun _ h => h
      intro x hx
      rw [List.zipIdx_cons, List.zipIdx_nil, List.mem_singleton] at hx
      rw [hx]
      apply hlog.makeMm_meets (fun _ h => h) henough
    rw [runRecontstruct] at hfail
    rw [hfail] at hmeets
    apply hmeets rfl

theorem four_pos : 0 < 4 := by decide

/-- Segments of four blocks, with one page in each block. -/
def smallGeometry : Geometry := ⟨1, 4, 100, Nat.one_pos, four_pos⟩

/-- A tree with a memtable of `n` sectors. -/
def smallParam (n : ℕ) : Param := ⟨false, n, 2, 2, 10, 4, 1, 1, 300⟩

/-- The lbas are written one after another. -/
def writes (lbas : List ℕ) : List (LsmOp ℕ) := lbas.map fun lba => .write lba lba

theorem flush_divides_fourLbas :
  ∃ lsm r target sc dev,
    Lsmtree.exec smallGeometry (smallParam 4) 0 (writes [1, 2, 3, 4]) = .ok lsm ∧
    (lsm.phase = .idle ∧ lsm.memtable.isFull = true) ∧
    lsm.memtable.insertDone smallGeometry lsm.dev = .ok (r, dev) ∧
    Lsmtree.populateNormal smallGeometry lsm.param lsm.sc .guardBf r.nowEntryNum 1
      = .ok (target, sc) ∧
    runRecontstruct smallGeometry r target false sc dev ≠ .error .divByZero
  := by
  refine ⟨_, _, _, _, _, rfl, ⟨rfl, rfl⟩, rfl, rfl, ?_⟩
  apply (@flush_divides ℕ smallGeometry (smallParam 4) 0 (writes [1, 2, 3, 4]) _ .guardBf _ _ _ _
    (by decide) rfl ⟨rfl, rfl⟩ rfl rfl).mpr
  decide

/-- Three blocks with only two lbas. -/
theorem not_divides_twoLbas :
  ∃ lsm r target sc dev,
    Lsmtree.exec smallGeometry (smallParam 12) 0 (writes [1, 2, 1, 2, 1, 2, 1, 2, 1, 2, 1, 2])
      = .ok lsm ∧
    (lsm.phase = .idle ∧ lsm.memtable.isFull = true) ∧
    lsm.memtable.insertDone smallGeometry lsm.dev = .ok (r, dev) ∧
    Lsmtree.populateNormal smallGeometry lsm.param lsm.sc .guardBf r.nowEntryNum 1
      = .ok (target, sc) ∧
    runRecontstruct smallGeometry r target false sc dev = .error .divByZero
  := ⟨_, _, _, _, _, rfl, ⟨rfl, rfl⟩, rfl, rfl, rfl⟩

end AppL
