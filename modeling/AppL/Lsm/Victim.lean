import Mathlib.Tactic.IntervalCases
import AppL.Lsm.LevelOrder

/-!
# The run with the most unlinked lbas

`level_get_max_unlinked_run` looks at as many slots as the level has runs.  Runs are taken out of
slots before those of other runs, so that a run can be in a slot that is not looked at.
-/

namespace AppL

open Transition ArgMax

namespace LevelSlots

variable {ρ : Type}

/-- The run that is taken out has the greatest ratio of all. -/
def ChoosesMax (lev : LevelSlots ρ) (stat : ρ → RunStat) : Prop :=
  ∃ r l₁ l₂, (lev.getMaxUnlinkedRun stat).1 = some r
    ∧ (∀ r' ∈ lev.runs, (stat r').ratio ≤ (stat r).ratio)
    ∧ lev.runs = l₁ ++ r :: l₂ ∧ (lev.getMaxUnlinkedRun stat).2.runs = l₁ ++ l₂

/-- A run with the greatest ratio is in one of the first `now_run_num` slots, and of the runs
there those in slots before it have smaller quotients as a `float`, and those behind it no greater
ones.  When no run there has entries, the run of the first slot has the greatest ratio. -/
def MaxScanned (lev : LevelSlots ρ) (stat : ρ → RunStat) : Prop :=
  (∃ i r t, i < lev.nowRunNum ∧ lev.runArray i = some r ∧ (stat r).floatRatio = some t
    ∧ (∀ r' ∈ lev.runs, (stat r').ratio ≤ (stat r).ratio)
    ∧ ∀ j r' t', j < lev.nowRunNum → lev.runArray j = some r' → (stat r').floatRatio = some t' →
      (j < i → t' < t) ∧ (i < j → t' ≤ t))
    ∨ ∃ r, lev.runArray 0 = some r ∧ (∀ r' ∈ lev.runs, (stat r').ratio ≤ (stat r).ratio)
      ∧ ∀ j r', j < lev.nowRunNum → lev.runArray j = some r' → (stat r').floatRatio = none

section Scan

variable {lev : LevelSlots ρ} {stat : ρ → RunStat}

theorem key_eq_some {i : ℕ} {t : WithTop ℚ} :
  lev.key stat none i = some t ↔ ∃ r, lev.runArray i = some r ∧ (stat r).floatRatio = some t
  := by
  unfold key
  rw [if_neg (by simp)]
  apply Option.bind_eq_some_iff

/-- The numbers before and behind a number. -/
theorem range_split {n i : ℕ} {l₁ l₂ : List ℕ} (h : List.range n = l₁ ++ i :: l₂) (j : ℕ) :
  (j ∈ l₁ ↔ j < i ∧ j < n) ∧ (j ∈ l₂ ↔ i < j ∧ j < n)
  := by
  have hsorted := @List.pairwise_lt_range n
  rw [h] at hsorted
  obtain ⟨-, hcons, hcross⟩ := List.pairwise_append.mp hsorted
  have hbehind := (List.pairwise_cons.mp hcons).1
  have hmem : j < n ↔ j ∈ l₁ ∨ j = i ∨ j ∈ l₂ := by
    rw [← List.mem_range, h, List.mem_append, List.mem_cons]
  have hbefore : j ∈ l₁ → j < i := fun hj => hcross j hj i List.mem_cons_self
  have hafter : j ∈ l₂ → i < j := fun hj => hbehind j hj
  constructor
  · constructor
    · exact fun hj => ⟨hbefore hj, hmem.mpr (.inl hj)⟩
    · rintro ⟨hlt, hn⟩
      rcases hmem.mp hn with hj | hj | hj
      · apply hj
      · omega
      · have := hafter hj
        omega
  · constructor
    · exact fun hj => ⟨hafter hj, hmem.mpr (.inr (.inr hj))⟩
    · rintro ⟨hlt, hn⟩
      rcases hmem.mp hn with hj | hj | hj
      · have := hbefore hj
        omega
      · omega
      · apply hj

/-- The slot that the loop finds. -/
theorem isFirst_iff {i : ℕ} {t : WithTop ℚ} :
  IsFirst (lev.key stat none) (List.range lev.nowRunNum) i t
    ↔ i < lev.nowRunNum ∧ (∃ r, lev.runArray i = some r ∧ (stat r).floatRatio = some t)
      ∧ ∀ j r' t', j < lev.nowRunNum → lev.runArray j = some r' → (stat r').floatRatio = some t' →
        (j < i → t' < t) ∧ (i < j → t' ≤ t)
  := by
  constructor
  · intro h
    obtain ⟨l₁, l₂, hsplit, hbefore, hafter⟩ := h.split
    use List.mem_range.mp h.mem, key_eq_some.mp h.key_eq
    intro j r' t' hj hr' ht'
    obtain ⟨h₁, h₂⟩ := range_split hsplit j
    have hkey := key_eq_some.mpr ⟨r', hr', ht'⟩
    exact ⟨fun hlt => hbefore j (h₁.mpr ⟨hlt, hj⟩) t' hkey,
      fun hgt => hafter j (h₂.mpr ⟨hgt, hj⟩) t' hkey⟩
  · rintro ⟨hi, hkey, hothers⟩
    obtain ⟨l₁, l₂, hsplit⟩ := List.append_of_mem (List.mem_range.mpr hi)
    refine ⟨key_eq_some.mpr hkey, l₁, l₂, hsplit, ?_, ?_⟩
    · intro j hj t' ht'
      obtain ⟨hlt, hn⟩ := (range_split hsplit j).1.mp hj
      obtain ⟨r', hr', ht'⟩ := key_eq_some.mp ht'
      apply (hothers j r' t' hn hr' ht').1 hlt
    · intro j hj t' ht'
      obtain ⟨hgt, hn⟩ := (range_split hsplit j).2.mp hj
      obtain ⟨r', hr', ht'⟩ := key_eq_some.mp ht'
      apply (hothers j r' t' hn hr' ht').2 hgt

/-- What the call gives is the run of the slot that the loop finds. -/
theorem getMaxUnlinkedRun_fst (lev : LevelSlots ρ) (stat : ρ → RunStat) :
  (lev.getMaxUnlinkedRun stat).1 = lev.runArray (lev.scan stat 0 none).1
  := by
  unfold LevelSlots.getMaxUnlinkedRun
  dsimp only
  split
  · rfl
  · rfl

/-- The right run is taken exactly when it is looked at. -/
theorem Inv.choosesMax_iff (h : Inv lev) :
  lev.ChoosesMax stat ↔ lev.MaxScanned stat
  := by
  have hfound := getMaxUnlinkedRun_fst lev stat
  have htaken := (h.getMaxUnlinkedRun stat).2.2.2
  have hiff : lev.ChoosesMax stat ↔ ∃ r, lev.runArray (lev.scan stat 0 none).1 = some r
      ∧ ∀ r' ∈ lev.runs, (stat r').ratio ≤ (stat r).ratio := by
    constructor
    · rintro ⟨r, l₁, l₂, hr, hmax, -⟩
      use r, hfound ▸ hr, hmax
    · rintro ⟨r, hr, hmax⟩
      rw [← hfound] at hr
      obtain ⟨-, l₁, l₂, hruns, hruns'⟩ := htaken r hr
      use r, l₁, l₂, hr, hmax, hruns, hruns'
  rw [hiff]
  rcases @foldl_step _ _ _ (lev.key stat none) (List.range lev.nowRunNum) 0 (-1)
    with ⟨hscan, hle⟩ | ⟨-, hfirst⟩
  · have hslot : (lev.scan stat 0 none).1 = 0 := congrArg Prod.fst hscan
    have hnone : ∀ j r', j < lev.nowRunNum → lev.runArray j = some r' →
        (stat r').floatRatio = none := by
      intro j r' hj hr'
      by_contra hsome
      obtain ⟨t, ht⟩ := Option.ne_none_iff_exists'.mp hsome
      have hge := hle j (List.mem_range.mpr hj) t (key_eq_some.mpr ⟨r', hr', ht⟩)
      exact absurd (lt_of_floatRatio ht) hge.not_gt
    rw [hslot]
    constructor
    · rintro ⟨r, hr, hmax⟩
      right
      use r, hr, hmax, hnone
    · rintro (⟨i, r, t, hi, hr, ht, -⟩ | ⟨r, hr, hmax, -⟩)
      · rw [hnone i r hi hr] at ht
        cases ht
      · use r, hr, hmax
  · change IsFirst (lev.key stat none) _ (lev.scan stat 0 none).1 (lev.scan stat 0 none).2 at hfirst
    obtain ⟨hlt, ⟨r₀, hr₀, ht₀⟩, hothers⟩ := isFirst_iff.mp hfirst
    constructor
    · rintro ⟨r, hr, hmax⟩
      rw [hr₀] at hr
      cases hr
      left
      exact ⟨_, r₀, _, hlt, hr₀, ht₀, hmax, hothers⟩
    · rintro (⟨i, r, t, hi, hr, ht, hmax, hothers'⟩ | ⟨r, -, -, hnone⟩)
      · have hsame := hfirst.unique (isFirst_iff.mpr ⟨hi, ⟨r, hr, ht⟩, hothers'⟩)
        rw [hsame]
        use r, hr, hmax
      · rw [hnone _ r₀ hlt hr₀] at ht₀
        cases ht₀

end Scan

/-- A successful call keeps the list of the slots. -/
theorem Inv.step_ok {lev lev' : LevelSlots ρ} {op : LevelOp ρ} (h : Inv lev)
    (hstep : lev.step op = .ok lev') :
  Inv lev'
  := by
  cases op with
  | insert r => apply (insertRun_ok h hstep).1
  | target stat runNum =>
      obtain ⟨r, hget, hstep⟩ := bind_eq_ok.mp hstep
      obtain ⟨u, -, hstep⟩ := bind_eq_ok.mp hstep
      cases hstep
      obtain ⟨srcs, -, htaken⟩ := h.taken_of_ok hget
      apply htaken.inv
  | rebuild targetSrcNum => apply (rebuild_le h hstep).1
  | getMax stat =>
      cases hstep
      apply (h.getMaxUnlinkedRun stat).1

/-- In every state that a level reaches, the run with the greatest ratio is taken out exactly when
it is looked at and is not mistaken for another one by the rounding. -/
theorem maxUnlinkedRun_iff {maxRunNum : ℕ} {ops : List (LevelOp ρ)} {lev : LevelSlots ρ}
    (hrun : run step (init maxRunNum) ops = .ok lev) (stat : ρ → RunStat) :
  lev.ChoosesMax stat ↔ lev.MaxScanned stat
  := by
  have hinv : Inv lev := run_preserves Inv (fun _ _ _ h _ hstep => h.step_ok hstep)
    (inv_init maxRunNum) (guarded_true _ ops) hrun
  apply hinv.choosesMax_iff

/-- One run has lost all its lbas. -/
def lost (r : ℕ) : ℕ → RunStat := fun r' => if r' = r then ⟨4, 4⟩ else ⟨0, 4⟩

/-- The run with the greatest ratio is in the second of three slots. -/
theorem maxUnlinkedRun_iff_second :
  ∃ lev, run step (init 3) [.insert 0, .insert 1, .insert 2] = .ok lev ∧ lev.ChoosesMax (lost 1)
  := by
  have hview : (run step (init 3) [.insert 0, .insert 1, .insert 2]).map
      (fun lev => (lev.nowRunNum, lev.runs, lev.runArray 0, lev.runArray 1, lev.runArray 2))
      = .ok (3, [2, 1, 0], some 0, some 1, some 2) := by decide
  obtain ⟨lev, hrun, hview⟩ := map_eq_ok hview
  simp only [Prod.mk.injEq] at hview
  obtain ⟨hnow, hruns, h₀, h₁, h₂⟩ := hview
  refine ⟨lev, hrun, (maxUnlinkedRun_iff hrun (lost 1)).mpr ?_⟩
  have hone : (lost 1 1).floatRatio = some 1 := by decide +kernel
  have hzero : (lost 1 0).floatRatio = some 0 := by decide +kernel
  have hzero' : (lost 1 2).floatRatio = some 0 := by decide +kernel
  refine .inl ⟨1, 1, 1, by omega, h₁, hone, ?_, ?_⟩
  · rw [hruns]
    decide +kernel
  · intro j r' t' hj hr' ht'
    rw [hnow] at hj
    interval_cases j
    · rw [h₀] at hr'
      cases hr'
      rw [hzero] at ht'
      cases ht'
      use fun _ => by decide, fun hlt => absurd hlt (by decide)
    · use fun hlt => absurd hlt (by decide), fun hlt => absurd hlt (by decide)
    · rw [h₂] at hr'
      cases hr'
      rw [hzero'] at ht'
      cases ht'
      use fun hlt => absurd hlt (by decide), fun _ => by decide

/-- A run of the first slot is rebuilt, and the new run is put into the last one of four slots. -/
def behindLast : List (LevelOp ℕ) :=
  [.insert 0, .insert 1, .insert 2, .getMax (lost 0), .insert 3]

/-- The last of the four slots is not looked at, and a run is taken that has lost nothing. -/
theorem not_choosesMax_behindLast :
  ∃ lev, run step (init 4) behindLast = .ok lev ∧ lev.runs = [3, 2, 1]
    ∧ (lev.getMaxUnlinkedRun (lost 3)).1 = some 1 ∧ ¬ lev.ChoosesMax (lost 3)
  := by
  have hview : (run step (init 4) behindLast).map
      (fun lev => (lev.runs, (lev.getMaxUnlinkedRun (lost 3)).1))
      = .ok ([3, 2, 1], some 1) := by decide +kernel
  obtain ⟨lev, hrun, hview⟩ := map_eq_ok hview
  simp only [Prod.mk.injEq] at hview
  obtain ⟨hruns, hget⟩ := hview
  use lev, hrun, hruns, hget
  rintro ⟨r, l₁, l₂, hr, hmax, -⟩
  rw [hget] at hr
  cases hr
  have hle := hmax 3 (by rw [hruns]; simp)
  exact absurd hle (by decide +kernel)

end LevelSlots

end AppL
