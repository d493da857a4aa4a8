import Mathlib.Algebra.Order.BigOperators.Group.List
import AppL.Lsm.RangeSearch
import AppL.Lsm.Bounds

/-!
# The end of a merge

No counter of `run_merge` goes on in every turn of its loops: a round goes up to a number of
blocks that an iterator may have passed already, and a block that is moved does not count.  But
the counters of a source grow by at most one for each entry that it drops.  So a round that
leaves entries has dropped as many of them as there were rounds, or moves a block.
-/

namespace AppL

open Transition

variable {δ : Type} {g : Geometry} {E : Abort → Prop}

/-! ### Iterators -/

namespace SpSetIter

variable {ssi ssi' ssi'' : SpSetIter}

/-- How far the counters of the iterator have gone. -/
def steps (ssi : SpSetIter) : ℕ := max ssi.nowSteNum ssi.miterPickCnt

/-- The iterator `ssi'` has gone over at most `k` more pairs than `ssi`. -/
structure Farther (k : ℕ) (ssi ssi' : SpSetIter) : Prop where
  type : ssi'.type = ssi.type
  divisor : ssi'.stePerEnt = ssi.stePerEnt
  steps : ssi'.steps ≤ ssi.steps + k

theorem Farther.trans {j k : ℕ} (h : Farther j ssi ssi') (h' : Farther k ssi' ssi'') :
  Farther (j + k) ssi ssi''
  where
    type := h'.type.trans h.type
    divisor := h'.divisor.trans h.divisor
    steps := by
      have := h.steps
      have := h'.steps
      omega

end SpSetIter

/-! ### Sources -/

namespace Mm

variable {mm mm' mm'' : Mm δ}

/-- How far the counters of the source have gone. -/
def spent (mm : Mm δ) : ℕ := max mm.nowProcBlockIdx mm.ssi.steps

/-- Entries are left in a source that is not done, and its iterator has something to divide by,
unless there is only one lba and no block to be moved. -/
structure Goes (g : Geometry) (mm : Mm δ) : Prop where
  live : mm.done = false → mm.left g ≠ []
  divides : mm.ssi.type = .runLog →
    mm.ssi.stePerEnt ≠ 0 ∨ (mm.left g).length ≤ 1 ∧ mm.ssi.noncopyFlag = []

/-- The source `mm'` is `mm` some entries later.  Its counters have not grown by more than
these entries. -/
structure Advances (g : Geometry) (mm mm' : Mm δ) : Prop where
  goes : mm'.Goes g
  sub : (mm'.left g).Sublist (mm.left g)
  spent : mm'.spent + (mm'.left g).length ≤ mm.spent + (mm.left g).length

theorem Goes.advances (h : mm.Goes g) :
  mm.Advances g mm
  := ⟨h, List.Sublist.refl _, Nat.le_refl _⟩

theorem Advances.trans (h : mm.Advances g mm') (h' : mm'.Advances g mm'') :
  mm.Advances g mm''
  := ⟨h'.goes, h'.sub.trans h.sub, Nat.le_trans h'.spent h.spent⟩

end Mm

namespace MergeState

variable {st st' : MergeState δ} {m : Merging δ} {blocks : List (RunType × List Ste)} {n : ℕ}
  {prev : Option ℕ} {mms mms' : List (Mm δ)}

/-! ### Progress -/

/-- The number of entries that are left in the sources. -/
def size (g : Geometry) (mms : List (Mm δ)) : ℕ := (mms.map fun mm => (mm.left g).length).sum

theorem size_cons (mm : Mm δ) (mms : List (Mm δ)) :
  size g (mm :: mms) = (mm.left g).length + size g mms
  := by rw [size, List.map_cons, List.sum_cons, size]

/-- Sources with which the loops come to an end: their counters, together with the entries that
are left, stay below `n`, and the entries are above the lba sorted last. -/
structure Going (g : Geometry) (n : ℕ) (prev : Option ℕ) (mms : List (Mm δ)) : Prop where
  goes : ∀ mm ∈ mms, mm.Goes g
  spent : ∀ mm ∈ mms, mm.spent + size g mms ≤ n
  above : ∀ mm ∈ mms, ∀ e ∈ mm.left g, prev.all (· < e.lba) = true

/-- Sources that advance. -/
theorem size_advances (h : List.Forall₂ (Mm.Advances g) mms mms') :
  size g mms' ≤ size g mms ∧ ∀ mm' ∈ mms', mm'.Goes g ∧
    ∃ mm ∈ mms, (mm'.left g).Sublist (mm.left g) ∧
      mm'.spent + size g mms' ≤ mm.spent + size g mms
  := by
  induction h with
  | nil => use Nat.le_refl _, by simp
  | @cons mm mm' mms mms' hmm _ ih =>
      obtain ⟨hle, hall⟩ := ih
      have hlen := hmm.sub.length_le
      have hspent := hmm.spent
      simp only [size_cons]
      use by omega
      intro x hx
      rcases List.mem_cons.mp hx with rfl | hx
      · use hmm.goes, mm, List.mem_cons_self, hmm.sub, by omega
      · obtain ⟨hgoes, y, hy, hsub, hy'⟩ := hall x hx
        use hgoes, y, List.mem_cons_of_mem _ hy, hsub, by omega

theorem Going.advance (h : Going g n prev mms) (ha : List.Forall₂ (Mm.Advances g) mms mms') :
  Going g n prev mms'
  := by
  obtain ⟨-, hall⟩ := size_advances ha
  refine ⟨fun mm' hmm' => (hall mm' hmm').1, ?_, ?_⟩
  · intro mm' hmm'
    obtain ⟨-, mm, hmm, -, hle⟩ := hall mm' hmm'
    apply Nat.le_trans hle (h.spent mm hmm)
  · intro mm' hmm' e he
    obtain ⟨-, mm, hmm, hsub, -⟩ := hall mm' hmm'
    apply h.above mm hmm e (hsub.subset he)

/-- One source advances. -/
theorem Going.set {ridx : ℕ} {mm mm' : Mm δ} (h : Going g n prev mms)
    (hmm : mms[ridx]? = some mm) (ha : mm.Advances g mm') :
  Going g n prev (mms.set ridx mm') ∧
    size g (mms.set ridx mm') + (mm.left g).length = size g mms + (mm'.left g).length
  := by
  obtain ⟨ms, ms', heq, -, hset⟩ := split_at hmm
  have hself : ∀ l : List (Mm δ), (∀ x ∈ l, x ∈ mms) → List.Forall₂ (Mm.Advances g) l l := by
    intro l hl
    rw [List.forall₂_same]
    intro x hx
    apply (h.goes x (hl x hx)).advances
  constructor
  · apply h.advance
    rw [hset, heq]
    apply List.rel_append
    · apply hself
      intro x hx
      simp [heq, hx]
    · apply List.Forall₂.cons ha
      apply hself
      intro x hx
      simp [heq, hx]
  · rw [hset, heq]
    simp only [size, List.map_append, List.map_cons, List.sum_append, List.sum_cons]
    omega

/-- All sources are done when nothing is left. -/
theorem Going.allDone (h : Going g n prev st.mms) (hnil : ∀ mm ∈ st.mms, mm.left g = []) :
  st.allDone = true
  := by
  rw [MergeState.allDone, List.all_eq_true]
  intro mm hmm
  by_contra hd
  apply (h.goes mm hmm).live (Bool.eq_false_iff.mpr hd) (hnil mm hmm)

/-- `trivial_move` finds a block for the lba that its source is at. -/
theorem targetSte_isSome {mm : Mm δ} {p : Picked} {s : Ste} {k : ℕ} (h : mm.Reading g)
    (hp : mm.pick g = some p) (hs : mm.r.stBody.stes[k]? = some s) (hcov : s.Covers p.lba) :
  ∃ steNum, targetSte g mm p.lba = some steNum
  := by
  rcases h.reads with hr | hr
  · use k
    rw [targetSte, hr.run]
    apply (StArray.getTargetSte_eq_some (h.ranged hr.run) p.lba k).mpr ⟨s, hs, hcov⟩
  · obtain ⟨e, l, hl, -⟩ := left_cons_of_pick h.reads hp
    cases ht : mm.ssi.tree with
    | nil => simp [Mm.left, hr.type, ht] at hl
    | cons x t =>
        rw [targetSte, hr.run.type, ht]
        exact ⟨_, rfl⟩

/-- The block that is to be moved, as `trivial_move` finds it. -/
theorem AtBlock.target {ridx j : ℕ} {mm : Mm δ} {p : Picked} {ste : Ste}
    (h : Sim g blocks st m) (hat : AtBlock g blocks st ridx j mm p ste) :
  ∃ s, targetSte g mm p.lba = some j ∧ mm.r.stBody.stes[j]? = some s ∧
    s.startLba = p.lba ∧ s.sorted = true
  := by
  have hread := h.mms mm (List.mem_of_getElem? hat.picks.get)
  obtain ⟨s, hs, hcore⟩ := Movable.get h hat.picks.get hat.movable
  obtain ⟨hmeta, hne⟩ := hread.reads.meta (List.mem_of_getElem? hs)
  have hstart : s.startLba = p.lba := by
    rw [← hat.start, ← hcore]
    rfl
  have hcov : s.Covers p.lba := by
    rw [← hstart]
    use Nat.le_refl _, hmeta.start_le_end hne
  obtain ⟨steNum, htarget⟩ := targetSte_isSome hread hat.picks.pick hs hcov
  obtain ⟨s', hs', hcov'⟩ := targetSte_covers hread.reads hat.picks.pick htarget
  have hcov'' : ste.Covers p.lba := hcore ▸ hcov
  obtain ⟨-, rfl⟩ := Movable.unique h hat.picks.get hat.movable hs' hcov' hcov''
  use s, htarget, hs, hstart
  have hsort := hat.movable.sorted
  rw [← hcore] at hsort
  apply hsort

/-- A source that advances keeps the owners. -/
theorem Owned.set {ridx : ℕ} {mm mm' : Mm δ} {res : Run δ} {sc : ShortcutMaster} {dev : Dev δ}
    (h : st.Owned g) (hmm : st.mms[ridx]? = some mm) (ha : mm.Advances g mm')
    (hsc : st.sc.KeepsOwned sc) :
  Owned g { st with mms := st.mms.set ridx mm', res := res, sc := sc, dev := dev }
  := by
  constructor
  · intro x hx e he
    apply hsc
    rcases List.mem_or_eq_of_mem_set hx with hx | rfl
    · apply h.left x hx e he
    · apply h.left mm (List.mem_of_getElem? hmm) e (ha.sub.subset he)
  · intro p hp
    apply hsc
    apply h.sorted p hp

end MergeState

/-! ### The beginning -/

namespace MergeState

variable {rset : List (Run δ)} {target : Run δ} {force : Bool}

end MergeState

/-! ### The merge -/

/-- The loops of `run_merge`: all of it but the end of the target. -/
def mergeLoops (g : Geometry) (rset : List (Run δ)) (target : Run δ) (force : Bool)
    (sc : ShortcutMaster) (dev : Dev δ) : Except Abort (MergeState δ) := do
  let st ← MergeState.start rset target force sc dev
  MergeState.rounds g (MergeState.roundStep g rset force) force st.roundBound 0 st

theorem runMerge_eq (g : Geometry) (rset : List (Run δ)) (target : Run δ) (force : Bool)
    (sc : ShortcutMaster) (dev : Dev δ) :
  runMerge g rset target force sc dev = mergeLoops g rset target force sc dev >>= fun st => do
    let (res, dev) ← st.res.insertDone g st.dev
    let sc := st.mms.foldl (fun sc mm => sc.setCompactionFlag mm.r.info false) st.sc
    return { st with res := res, sc := sc, dev := dev }
  := by
  rw [runMerge, mergeLoops, bind_assoc]

/-- The loops of a merge end with all sources done.  They may still fail in a check of what they
write to, but in no access outside of an array. -/
def LoopsEnd (loops : Except Abort (MergeState δ)) : Prop :=
  Meets (fun e => e.ofLoop = false ∧ e ≠ .outOfBounds) (fun st => st.allDone = true) loops

/-- The merge after its loops. -/
theorem LoopsEnd.runMerge {rset : List (Run δ)} {target : Run δ} {force : Bool}
    {sc : ShortcutMaster} {dev : Dev δ} (h : LoopsEnd (mergeLoops g rset target force sc dev)) :
  Meets (fun e => e.ofLoop = false) (fun st => st.allDone = true)
    (runMerge g rset target force sc dev)
  := by
  rw [runMerge_eq]
  apply (h.of_errors fun e he => he.1).bind
  intro st hdone
  apply (Run.insertDone_meets fun _ h => h).bind
  intro _ _
  apply hdone

/-- Finished normal runs, or the memtable alone. -/
def FinishedRuns (g : Geometry) (rset : List (Run δ)) : Prop :=
  (∀ r ∈ rset, r.type = .runNormal ∧ r.Finished g) ∨ ∃ r, rset = [r] ∧ r.FinishedLog g

/-- The blocks of every normal source are in the order of their ranges, which are disjoint. -/
def RangedRuns (rset : List (Run δ)) : Prop :=
  ∀ r ∈ rset, r.type = .runNormal → StArray.Ranged r.stBody.stes

theorem FinishedRuns.inputs {rset : List (Run δ)} (h : FinishedRuns g rset)
    (hranged : RangedRuns rset) :
  MergeInputs g rset
  := by
  rcases h with hnormal | hlog
  · left
    intro r hr
    obtain ⟨htype, hfin⟩ := hnormal r hr
    exact ⟨htype, hranged r hr htype, hfin⟩
  · right
    apply hlog

end AppL
