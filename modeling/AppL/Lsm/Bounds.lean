import AppL.Lsm.Ranges

/-!
# Accesses in a merge

The loops of a merge access no array outside of its bounds: the entries that were sorted are
found in their sources, a summary page is written only for a block that has room in the sorted
table, and an lba that is linked to the target has an owner.
-/

namespace AppL

open Transition

variable {δ : Type} {g : Geometry}

/-- A block whose summary page is due has pairs, and room in the table. -/
def StArray.Fits (sa : StArray) : Prop :=
  sa.summaryWriteAlert = true → sa.writing = true ∧ sa.nowSteNum < sa.maxSteNum

theorem StArray.fits_of_alert {sa : StArray} (h : sa.summaryWriteAlert = false) :
  sa.Fits
  := by
  intro ha
  rw [h] at ha
  cases ha

/-! ### The target -/

namespace Run

variable {r : Run δ} {dev : Dev δ}

end Run

/-! ### Owners -/

/-- The lbas of the merge have owners. -/
structure Merging.Owned (m : Merging δ) : Prop where
  srcs : ∀ x ∈ m.srcs, ∀ e ∈ x.2, m.sc.scMap e.lba ≠ none
  sorted : ∀ y ∈ m.sorted, m.sc.scMap y.2.lba ≠ none

namespace Merging

variable {moves : ℕ → Ste → Prop} {m m' : Merging δ}

/-- A merge that has the entries of another one, and keeps the owners. -/
theorem Owned.of_entries (h : m.Owned) (hsc : m.sc.KeepsOwned m'.sc)
    (hsrcs : ∀ x ∈ m'.srcs, ∀ e ∈ x.2, ∃ y ∈ m.srcs, e ∈ y.2)
    (hsorted : ∀ y ∈ m'.sorted, y ∈ m.sorted ∨ ∃ x ∈ m.srcs, y.2 ∈ x.2) :
  m'.Owned
  := by
  constructor
  · intro x hx e he
    obtain ⟨y, hy, hey⟩ := hsrcs x hx e he
    apply hsc _ (h.srcs y hy e hey)
  · intro y hy
    apply hsc
    rcases hsorted y hy with hy | ⟨x, hx, hyx⟩
    · apply h.sorted y hy
    · apply h.srcs x hx _ hyx

theorem insertAll_keepsOwned (xs : List (ℕ × δ)) :
  ∀ {r r' : Run δ} {sc sc' : ShortcutMaster} {dev dev' : Dev δ},
    Run.insertAll g xs r sc dev = .ok (r', sc', dev') → sc.KeepsOwned sc'
  := by
  induction xs with
  | nil =>
      intro r r' sc sc' dev dev' h
      cases h
      apply ShortcutMaster.KeepsOwned.refl
  | cons x xs ih =>
      intro r r' sc sc' dev dev' h
      simp only [Run.insertAll, bind_eq_ok] at h
      obtain ⟨⟨r₁, sc₁, dev₁⟩, hfst, hrest⟩ := h
      have hkeeps := (Run.insert_meets (E := fun _ => True) (fun _ _ _ => trivial)
        (Run.writePieces_meets (fun _ _ _ => trivial) _ (fun _ => trivial)
          fun _ _ => trivial)).of_ok hfst
      apply hkeeps.2.trans (ih hrest)

theorem linkBulkLba_keepsOwned {sc sc' : ShortcutMaster} {idx : ℕ} {lbas : List ℕ}
    (h : sc.linkBulkLba idx lbas = .ok sc') :
  sc.KeepsOwned sc'
  := by
  apply (ShortcutMaster.linkBulkLba_meets (E := fun _ => True) fun _ _ _ => trivial).of_ok h

theorem srcs_mem {as bs : List (ℕ × List Entry)} {x : ℕ × List Entry}
    (hsrcs : m.srcs = as ++ x :: bs) :
  x ∈ m.srcs ∧ ∀ y ∈ as ++ bs, y ∈ m.srcs
  := by
  rw [hsrcs]
  constructor
  · simp
  · intro y hy
    simp only [List.mem_append, List.mem_cons] at hy ⊢
    tauto

theorem Step.owned (hstep : m.Step g moves m') (h : m.Owned) :
  m'.Owned
  := by
  cases hstep with
  | skip hsrcs hold hdev =>
      obtain ⟨hself, hothers⟩ := srcs_mem hsrcs
      apply Owned.of_entries h
      · apply ShortcutMaster.KeepsOwned.refl
      · intro x hx e he
        rcases mem_srcs hx with rfl | hx
        · exact ⟨_, hself, List.mem_cons_of_mem _ he⟩
        · use x, hothers x hx, he
      · intro y hy
        left
        apply hy
  | push hsrcs hnew hmin hdev =>
      obtain ⟨hself, hothers⟩ := srcs_mem hsrcs
      apply Owned.of_entries h
      · apply ShortcutMaster.KeepsOwned.refl
      · intro x hx e he
        rcases mem_srcs hx with rfl | hx
        · exact ⟨_, hself, List.mem_cons_of_mem _ he⟩
        · rw [← List.map_append] at hx
          obtain ⟨y, hy, rfl⟩ := List.mem_map.mp hx
          use y, hothers y hy, (List.mem_filter.mp he).1
      · intro y hy
        rcases List.mem_append.mp hy with hy | hy
        · left
          apply hy
        · right
          rw [List.mem_singleton.mp hy]
          exact ⟨_, hself, List.mem_cons_self⟩
  | flush hdev hres hsc =>
      apply Owned.of_entries h
      · apply (insertAll_keepsOwned _ hres).trans (linkBulkLba_keepsOwned hsc)
      · intro x hx e he
        use x, hx, he
      · intro y hy
        cases hy
  | move hsrcs hsorted hmeta hne hcopied hflag hapart hsums hres hsc =>
      obtain ⟨hself, hothers⟩ := srcs_mem hsrcs
      apply Owned.of_entries h
      · apply linkBulkLba_keepsOwned hsc
      · intro x hx e he
        rcases mem_srcs hx with rfl | hx
        · exact ⟨_, hself, List.mem_append_right _ he⟩
        · use x, hothers x hx, he
      · intro y hy
        left
        apply hy

/-- The run lemma of the steps. -/
theorem Steps.owned (hsteps : m.Steps g moves m') (h : m.Owned) :
  m'.Owned
  := by
  induction hsteps with
  | refl => apply h
  | tail _ hstep ih => apply hstep.owned ih

end Merging

/-! ### Writing the sorted entries -/

namespace MergeState

variable {st st' : MergeState δ} {m : Merging δ} {blocks : List (RunType × List Ste)}
  {E : Abort → Prop}

/-- The lbas of the state have owners. -/
structure Owned (g : Geometry) (st : MergeState δ) : Prop where
  left : ∀ mm ∈ st.mms, ∀ e ∈ mm.left g, st.sc.scMap e.lba ≠ none
  sorted : ∀ p ∈ st.sortedArr, st.sc.scMap p.lba ≠ none

/-- The target of a merge has no summary page to be written. -/
theorem Sim.fits (h : Sim g blocks st m) (hord : m.Ordered g) :
  st.res.type = .runNormal ∧ st.res.stBody.Fits
  := by
  rw [← h.res]
  constructor
  · apply hord.laid.type
  · apply StArray.fits_of_alert (Run.alert_eq_false hord.laid.filling hord.room)

end MergeState

/-! ### The beginning -/

/-- The entries that a run has as a source of a merge. -/
def Run.mergeEntries (g : Geometry) (r : Run δ) : List Entry :=
  match r.type with
  | .runNormal => r.entries
  | .runLog => r.treeEntries g

theorem makeMm_left {rset : List (Run δ)} {target : Run δ} {blocks : List (ℕ × ℕ)}
    {x : Run δ × ℕ} {mm : Mm δ} (hin : MergeInputs g rset) (hx : x.1 ∈ rset)
    (h : MergeState.makeMm target blocks x = .ok mm) :
  mm.r = x.1 ∧ mm.left g = x.1.mergeEntries g
  := by
  simp only [MergeState.makeMm, bind_eq_ok] at h
  obtain ⟨ssi, hinit, hret⟩ := h
  cases hret
  rw [MergeState.markDisjoint_eq]
  refine ⟨rfl, ?_⟩
  rcases hin with hnormal | ⟨r, hset, hlog⟩
  · obtain ⟨htype, -, hfin⟩ := hnormal x.1 hx
    simp only [SpSetIter.init, htype] at hinit
    cases hinit
    rw [Run.mergeEntries, htype]
    apply Run.left_start hfin.nil ⟨rfl, rfl, rfl⟩
  · rw [hset, List.mem_singleton] at hx
    simp only [SpSetIter.init, hx, hlog.done.type, bind_eq_ok, require_eq_ok] at hinit
    obtain ⟨-, -, hinit⟩ := hinit
    cases hinit
    rw [Run.mergeEntries, hx, hlog.done.type]
    rfl

namespace MergeState

end MergeState

end AppL
