import Mathlib.Data.Finset.Card
import Mathlib.Data.Finset.Range
import Mathlib.Data.List.Nodup
import AppL.Lsm.Slots

/-!
# The order of the runs of a level

The list of a level has the occupied slots once each, the newest run first.  The calls on a
level put a run before all others or take runs out and keep the order of the others.
-/

namespace AppL

open Transition

namespace LevelSlots

variable {ρ : Type}

/-- The list has the occupied slots once each. -/
structure Inv (lev : LevelSlots ρ) : Prop where
  nodup : lev.recencyPointer.Nodup
  occupied : ∀ i, i ∈ lev.recencyPointer ↔ (lev.runArray i).isSome
  count : lev.nowRunNum = lev.recencyPointer.length
  lt : ∀ i ∈ lev.recencyPointer, i < lev.maxRunNum

section Level

variable {lev : LevelSlots ρ} {stat : ρ → RunStat}

theorem inv_init (maxRunNum : ℕ) :
  Inv (init maxRunNum : LevelSlots ρ)
  where
    nodup := List.nodup_nil
    occupied := by simp [init]
    count := rfl
    lt := by simp [init]

/-- All slots of the list have runs. -/
theorem Inv.filterMap {arr : ℕ → Option ρ} {l : List ℕ} (h : ∀ i ∈ l, (arr i).isSome) :
  (l.filterMap arr).map some = l.map arr
  := by
  induction l with
  | nil => rfl
  | cons i l ih =>
      obtain ⟨r, hr⟩ := Option.isSome_iff_exists.mp (h i List.mem_cons_self)
      rw [List.filterMap_cons_some hr, List.map_cons, List.map_cons, hr,
        ih fun j hj => h j (List.mem_cons_of_mem i hj)]

theorem Inv.runs_map (h : Inv lev) :
  lev.runs.map some = lev.recencyPointer.map lev.runArray
  := Inv.filterMap fun i hi => (h.occupied i).mp hi

theorem Inv.length_runs (h : Inv lev) :
  lev.runs.length = lev.nowRunNum
  := by
  have hlen := congrArg List.length h.runs_map
  rw [List.length_map, List.length_map] at hlen
  rw [hlen, h.count]

theorem Inv.le (h : Inv lev) :
  lev.nowRunNum ≤ lev.maxRunNum
  := by
  rw [h.count, ← List.toFinset_card_of_nodup h.nodup]
  have hsub : lev.recencyPointer.toFinset ⊆ Finset.range lev.maxRunNum := by
    intro i hi
    apply Finset.mem_range.mpr (h.lt i (List.mem_toFinset.mp hi))
  have hcard := Finset.card_le_card hsub
  rwa [Finset.card_range] at hcard

/-- A level that is not full has an empty slot. -/
theorem Inv.exists_free (h : Inv lev) (hlt : lev.nowRunNum < lev.maxRunNum) :
  ∃ i < lev.maxRunNum, i ∉ lev.recencyPointer
  := by
  by_contra hall
  push Not at hall
  have hsub : Finset.range lev.maxRunNum ⊆ lev.recencyPointer.toFinset := by
    intro i hi
    apply List.mem_toFinset.mpr (hall i (Finset.mem_range.mp hi))
  have hcard := Finset.card_le_card hsub
  rw [Finset.card_range, List.toFinset_card_of_nodup h.nodup, ← h.count] at hcard
  omega

/-- The loop of `level_insert_run` looks at every slot. -/
theorem mem_slots {i : ℕ} (hi : i < lev.maxRunNum) :
  i ∈ lev.slots
  := by
  have hpos : 0 < lev.maxRunNum := by omega
  apply List.mem_map.mpr
  refine ⟨(i + (lev.maxRunNum - lev.nowRunNum % lev.maxRunNum)) % lev.maxRunNum,
    List.mem_range.mpr (Nat.mod_lt _ hpos), ?_⟩
  have hmod := Nat.mod_lt lev.nowRunNum hpos
  rw [Nat.add_mod_mod, ← Nat.mod_add_mod]
  have hsum : lev.nowRunNum % lev.maxRunNum + (i + (lev.maxRunNum - lev.nowRunNum % lev.maxRunNum))
      = i + lev.maxRunNum := by omega
  rw [hsum, Nat.add_mod_right, Nat.mod_eq_of_lt hi]

theorem slots_lt {i : ℕ} (hi : i ∈ lev.slots) :
  i < lev.maxRunNum
  := by
  obtain ⟨j, hj, rfl⟩ := List.mem_map.mp hi
  have := List.mem_range.mp hj
  apply Nat.mod_lt _ (by omega)

/-- A list of slots does not see a change of another one. -/
theorem filterMap_update {arr : ℕ → Option ρ} {l : List ℕ} {i : ℕ} (hi : i ∉ l) (r : Option ρ) :
  l.filterMap (Function.update arr i r) = l.filterMap arr
  := by
  apply List.filterMap_congr
  intro j hj
  rw [Function.update_of_ne]
  rintro rfl
  apply hi hj

/-- A new run comes first. -/
theorem Inv.insertRun (h : Inv lev) (hlt : lev.nowRunNum < lev.maxRunNum) (r : ρ) :
  ∃ lev', lev.insertRun (some r) = .ok lev' ∧ Inv lev' ∧ lev'.runs = r :: lev.runs
    ∧ lev'.maxRunNum = lev.maxRunNum
  := by
  have hfull : lev.isFull = false := decide_eq_false (by omega)
  obtain ⟨i, hi, hfree⟩ := h.exists_free hlt
  have hsome : (lev.slots.find? fun idx => (lev.runArray idx).isNone).isSome := by
    rw [List.find?_isSome]
    use i, mem_slots hi
    rw [h.occupied] at hfree
    simpa using hfree
  obtain ⟨idx, hidx⟩ := Option.isSome_iff_exists.mp hsome
  have hlt' : idx < lev.maxRunNum := slots_lt (List.mem_of_find?_eq_some hidx)
  have hnone : lev.runArray idx = none := by
    have hfound := List.find?_some hidx
    simpa using hfound
  have hnot : idx ∉ lev.recencyPointer := by
    rw [h.occupied, hnone]
    simp
  have hstep : lev.insertRun (some r) = .ok { lev with
      runArray := Function.update lev.runArray idx (some r)
      recencyPointer := idx :: lev.recencyPointer
      nowRunNum := lev.nowRunNum + 1 } := by
    refine bind_eq_ok.mpr ⟨(), require_eq_ok.mpr hfull, ?_⟩
    rw [hidx]
    rfl
  refine ⟨_, hstep, ⟨?_, ?_, ?_, ?_⟩, ?_, rfl⟩
  · apply List.nodup_cons.mpr ⟨hnot, h.nodup⟩
  · intro j
    dsimp only
    rw [List.mem_cons, h.occupied, Function.update_apply]
    by_cases hj : j = idx
    · simp [hj]
    · simp [hj]
  · dsimp only
    rw [h.count, List.length_cons]
  · intro j hj
    obtain hj | hj := List.mem_cons.mp hj
    · rw [hj]
      apply hlt'
    · apply h.lt j hj
  · unfold runs
    dsimp only
    rw [List.filterMap_cons_some (Function.update_self ..), filterMap_update hnot]

/-- A slot that is cleared is taken out of the list. -/
theorem Inv.clear {idx : ℕ} {l : List ℕ} (h : Inv lev) (hperm : lev.recencyPointer.Perm (idx :: l)) :
  Inv { lev.clear idx with recencyPointer := l }
  := by
  have hnodup := List.nodup_cons.mp (hperm.nodup_iff.mp h.nodup)
  have hlen := hperm.length_eq
  rw [List.length_cons] at hlen
  refine ⟨hnodup.2, ?_, ?_, ?_⟩
  · intro i
    have hocc := h.occupied i
    rw [hperm.mem_iff, List.mem_cons] at hocc
    change i ∈ l ↔ (Function.update lev.runArray idx none i).isSome
    rw [Function.update_apply]
    by_cases hi : i = idx
    · rw [if_pos hi, hi]
      simpa using hnodup.1
    · rw [if_neg hi, ← hocc]
      simp [hi]
  · change lev.nowRunNum - 1 = l.length
    rw [h.count]
    omega
  · intro i hi
    apply h.lt
    rw [hperm.mem_iff]
    apply List.mem_cons_of_mem idx hi

/-- The newest runs are taken. -/
theorem Inv.takeRecent {n : ℕ} :
  ∀ {lev : LevelSlots ρ}, Inv lev → n ≤ lev.nowRunNum →
    ∃ lev', LevelSlots.takeRecent n lev = .ok ((lev.runs.take n).map some, lev') ∧ Inv lev'
      ∧ lev'.runs = lev.runs.drop n ∧ lev'.maxRunNum = lev.maxRunNum
  := by
  induction n with
  | zero =>
      intro lev h _
      exact ⟨lev, rfl, h, rfl, rfl⟩
  | succ n ih =>
      intro lev h hle
      cases hlist : lev.recencyPointer with
      | nil =>
          rw [h.count, hlist] at hle
          cases hle
      | cons idx rest =>
          have hclear := h.clear (by rw [hlist])
          have hcount : ({ lev.clear idx with recencyPointer := rest } : LevelSlots ρ).nowRunNum
              = lev.nowRunNum - 1 := rfl
          obtain ⟨lev', hstep, hinv, hruns, hmax⟩ := ih hclear (by omega)
          obtain ⟨r, hr⟩ := Option.isSome_iff_exists.mp ((h.occupied idx).mp (by rw [hlist]; simp))
          have hnot : idx ∉ rest := by
            have hnodup := h.nodup
            rw [hlist] at hnodup
            apply (List.nodup_cons.mp hnodup).1
          have hcons : lev.runs = r
              :: ({ lev.clear idx with recencyPointer := rest } : LevelSlots ρ).runs := by
            unfold runs
            rw [hlist, List.filterMap_cons_some hr]
            congr 1
            apply (filterMap_update hnot none).symm
          refine ⟨lev', ?_, hinv, ?_, hmax⟩
          · unfold LevelSlots.takeRecent
            rw [hlist]
            refine bind_eq_ok.mpr ⟨_, hstep, ?_⟩
            rw [hcons, hr]
            rfl
          · rw [hruns, hcons]
            rfl

/-! ### Two runs -/

/-- Several slots become null. -/
def clearAll (lev : LevelSlots ρ) (l : List ℕ) : LevelSlots ρ := l.foldl LevelSlots.clear lev

theorem clearAll_with (l l' : List ℕ) :
  ∀ lev : LevelSlots ρ, { lev with recencyPointer := l' }.clearAll l
    = { lev.clearAll l with recencyPointer := l' }
  := by
  induction l with
  | nil =>
      intro lev
      rfl
  | cons idx l ih =>
      intro lev
      apply ih (lev.clear idx)

theorem clearAll_runArray {l : List ℕ} {i : ℕ} (hi : i ∉ l) :
  ∀ lev : LevelSlots ρ, (lev.clearAll l).runArray i = lev.runArray i
  := by
  induction l with
  | nil =>
      intro lev
      rfl
  | cons idx l ih =>
      intro lev
      rw [List.mem_cons, not_or] at hi
      have hrest := ih hi.2 (lev.clear idx)
      refine hrest.trans ?_
      apply Function.update_of_ne hi.1 none lev.runArray

theorem clearAll_maxRunNum (l : List ℕ) :
  ∀ lev : LevelSlots ρ, (lev.clearAll l).maxRunNum = lev.maxRunNum
  := by
  induction l with
  | nil =>
      intro lev
      rfl
  | cons idx l ih =>
      intro lev
      apply ih (lev.clear idx)

/-- Slots that are cleared are taken out of the list. -/
theorem Inv.clearAll {taken kept : List ℕ} :
  ∀ {lev : LevelSlots ρ}, Inv lev → lev.recencyPointer.Perm (taken ++ kept) →
    Inv { lev.clearAll taken with recencyPointer := kept }
  := by
  induction taken with
  | nil =>
      intro lev h hperm
      refine ⟨hperm.nodup_iff.mp h.nodup, ?_, ?_, ?_⟩
      · intro i
        apply hperm.mem_iff.symm.trans (h.occupied i)
      · apply h.count.trans hperm.length_eq
      · intro i hi
        apply h.lt i (hperm.mem_iff.mpr hi)
  | cons idx taken ih =>
      intro lev h hperm
      have hclear := h.clear hperm
      have hrest := ih hclear (.refl _)
      rw [clearAll_with] at hrest
      apply hrest

/-- The loop takes the two slots from the list. -/
theorem takeSorted_eq {first second : ℕ} {l : List ℕ} :
  ∀ {num : ℕ} {lev : LevelSlots ρ}, l.Nodup →
    (l.filter fun i => first = i ∨ second = i).length ≤ num →
    takeSorted first second num l lev
      = ((l.filter fun i => first = i ∨ second = i).map lev.runArray,
        l.filter fun i => ¬ (first = i ∨ second = i),
        lev.clearAll (l.filter fun i => first = i ∨ second = i))
  := by
  induction l with
  | nil =>
      intro num lev _ _
      rfl
  | cons idx l ih =>
      intro num lev hnodup hle
      obtain ⟨hnot, hnodup⟩ := List.nodup_cons.mp hnodup
      unfold takeSorted
      by_cases hit : first = idx ∨ second = idx
      · rw [List.filter_cons_of_pos (by simpa using hit), List.length_cons] at hle
        rw [if_pos hit, List.filter_cons_of_pos (by simpa using hit),
          List.filter_cons_of_neg (by rw [decide_eq_true_iff]; exact fun hno => hno hit)]
        split
        · have hnil : (l.filter fun i => decide (first = i ∨ second = i)) = [] := by
            apply List.eq_nil_of_length_eq_zero
            omega
          have hall : (l.filter fun i => decide (¬ (first = i ∨ second = i))) = l := by
            apply List.filter_eq_self.mpr
            intro i hi
            have hno := List.filter_eq_nil_iff.mp hnil i hi
            simpa using hno
          rw [hnil, hall]
          rfl
        · rw [ih hnodup (by omega)]
          dsimp only
          congr 1
          rw [List.map_cons]
          congr 1
          apply List.map_congr_left
          intro i hi
          apply Function.update_of_ne
          rintro rfl
          apply hnot (List.mem_filter.mp hi).1
      · rw [List.filter_cons_of_neg (by simpa using hit)] at hle
        rw [if_neg hit, List.filter_cons_of_neg (by simpa using hit),
          List.filter_cons_of_pos (by simpa using hit), ih hnodup hle]

/-- Runs are taken out of a level. -/
structure Taken (lev : LevelSlots ρ) (srcs : List ρ) (lev' : LevelSlots ρ) : Prop where
  inv : Inv lev'
  targets : srcs.Sublist lev.runs
  rest : lev'.runs.Sublist lev.runs
  perm : (srcs ++ lev'.runs).Perm lev.runs
  maxRunNum : lev'.maxRunNum = lev.maxRunNum

theorem Taken.count {srcs : List ρ} {lev' : LevelSlots ρ} (h : Inv lev) (htaken : Taken lev srcs lev') :
  lev'.nowRunNum + srcs.length = lev.nowRunNum
  := by
  have hlen := htaken.perm.length_eq
  rw [List.length_append, h.length_runs, htaken.inv.length_runs] at hlen
  omega

/-- The slots that the loop takes. -/
def hits (lev : LevelSlots ρ) (first second : ℕ) : List ℕ :=
  lev.recencyPointer.filter fun i => first = i ∨ second = i

theorem mem_hits {first second i : ℕ} (hi : i ∈ lev.hits first second) :
  i ∈ [first, second]
  := by
  rcases of_decide_eq_true (List.mem_filter.mp hi).2 with rfl | rfl
  · simp
  · simp

theorem Inv.hits_le (h : Inv lev) (first second : ℕ) :
  (lev.hits first second).length ≤ 2
  := by
  have hsub : lev.hits first second ⊆ [first, second] := fun i hi => mem_hits hi
  apply (List.subperm_of_subset (h.nodup.filter _) hsub).length_le

theorem Inv.hits_eq {first second : ℕ} (h : Inv lev) (hfirst : first ∈ lev.recencyPointer)
    (hsecond : second ∈ lev.recencyPointer) (hne : first ≠ second) :
  (lev.hits first second).length = 2
  := by
  have hperm : (lev.hits first second).Perm [first, second] := by
    apply (List.perm_ext_iff_of_nodup (h.nodup.filter _) (by simpa using hne)).mpr
    intro i
    constructor
    · apply mem_hits
    · intro hi
      simp only [List.mem_cons, List.not_mem_nil, or_false] at hi
      rcases hi with rfl | rfl
      · apply List.mem_filter.mpr ⟨hfirst, by simp⟩
      · apply List.mem_filter.mpr ⟨hsecond, by simp⟩
  apply hperm.length_eq

/-- The runs of two slots, in the order of the list. -/
theorem Inv.takeSorted (h : Inv lev) (first second : ℕ) :
  ∃ srcs rest lev', takeSorted first second 2 lev.recencyPointer lev = (srcs.map some, rest, lev')
    ∧ Taken lev srcs { lev' with recencyPointer := rest }
    ∧ srcs.length = (lev.hits first second).length
  := by
  have hle := h.hits_le first second
  have hstep := @takeSorted_eq ρ first second lev.recencyPointer 2 lev h.nodup hle
  unfold hits at *
  generalize hhit : (fun i => decide (first = i ∨ second = i)) = hit at *
  have hsome : ∀ i ∈ lev.recencyPointer.filter hit, (lev.runArray i).isSome := by
    intro i hi
    apply (h.occupied i).mp (List.mem_filter.mp hi).1
  have hneg : (fun i => decide (¬ (first = i ∨ second = i))) = fun i => !hit i := by
    funext i
    rw [← hhit]
    simp
  rw [hneg, ← Inv.filterMap hsome] at hstep
  have hsplit : (lev.recencyPointer.filter hit ++ lev.recencyPointer.filter fun i => !hit i).Perm
      lev.recencyPointer := List.filter_append_perm hit lev.recencyPointer
  have hkept : ({ lev.clearAll (lev.recencyPointer.filter hit) with
        recencyPointer := lev.recencyPointer.filter fun i => !hit i } : LevelSlots ρ).runs
      = (lev.recencyPointer.filter fun i => !hit i).filterMap lev.runArray := by
    apply List.filterMap_congr
    intro i hi
    apply clearAll_runArray
    intro hin
    have hyes := (List.mem_filter.mp hin).2
    have hno := (List.mem_filter.mp hi).2
    rw [hyes] at hno
    cases hno
  refine ⟨_, _, _, hstep, ⟨h.clearAll hsplit.symm, ?_, ?_, ?_, clearAll_maxRunNum _ _⟩, ?_⟩
  · apply List.Sublist.filterMap _ List.filter_sublist
  · rw [hkept]
    apply List.Sublist.filterMap _ List.filter_sublist
  · rw [hkept, ← List.filterMap_append]
    apply hsplit.filterMap _
  · have hlen := congrArg List.length (Inv.filterMap hsome)
    rw [List.length_map, List.length_map] at hlen
    apply hlen

/-! ### Ratios -/

theorem roundFloat_nonneg {q : ℚ} (hq : 0 ≤ q) :
  0 ≤ roundFloat q
  := by
  unfold roundFloat
  split
  · apply le_rfl
  · dsimp only
    have hulp : (0 : ℚ) ≤ 2 ^ (Int.log 2 q - 23) := zpow_nonneg (by norm_num) _
    have hfloor : (0 : ℚ) ≤ (⌊q / 2 ^ (Int.log 2 q - 23)⌋ : ℚ) := by
      exact_mod_cast Int.floor_nonneg.mpr (div_nonneg hq hulp)
    split
    · apply mul_nonneg hfloor hulp
    · apply mul_nonneg (by linarith) hulp

/-- Every ratio is greater than the one before the loop. -/
theorem lt_of_floatRatio {t : RunStat} {x : WithTop ℚ} (h : t.floatRatio = some x) :
  -1 < x
  := by
  unfold RunStat.floatRatio invalidRatio at h
  split at h
  · split at h
    · cases h
    · obtain rfl := Option.some.inj h
      apply WithTop.coe_lt_top (-1 : ℚ)
  · obtain rfl := Option.some.inj h
    have hnonneg : 0 ≤ roundFloat (roundFloat t.unlinkedLbaNum / roundFloat t.nowEntryNum) := by
      apply roundFloat_nonneg
      apply div_nonneg
      · apply roundFloat_nonneg (Nat.cast_nonneg _)
      · apply roundFloat_nonneg (Nat.cast_nonneg _)
    have hlt : (-1 : ℚ) < roundFloat (roundFloat t.unlinkedLbaNum / roundFloat t.nowEntryNum) := by
      linarith
    apply WithTop.coe_lt_coe.mpr hlt

theorem floatRatio_isSome {t : RunStat} (h : t.nowEntryNum ≠ 0) :
  t.floatRatio.isSome
  := by
  unfold RunStat.floatRatio invalidRatio
  rw [if_neg h]
  rfl

/-- The slots of the loops: their ratios, but not that of the slot `skip`. -/
def key (lev : LevelSlots ρ) (stat : ρ → RunStat) (skip : Option ℕ) (i : ℕ) : Option (WithTop ℚ) :=
  if some i = skip then none else (lev.runArray i).bind fun r => (stat r).floatRatio

theorem lt_of_key {skip : Option ℕ} {i : ℕ} {x : WithTop ℚ} (h : lev.key stat skip i = some x) :
  -1 < x ∧ some i ≠ skip ∧ (lev.runArray i).isSome
  := by
  unfold key at h
  split at h
  · cases h
  · rename_i hne
    obtain ⟨r, hr, hx⟩ := Option.bind_eq_some_iff.mp h
    rw [hr]
    exact ⟨lt_of_floatRatio hx, hne, rfl⟩

/-- The loop finds a slot when there is one. -/
theorem scan_spec {skip : Option ℕ} {i : ℕ} (d : ℕ) (hi : i < lev.nowRunNum)
    (hkey : (lev.key stat skip i).isSome) :
  (lev.runArray (lev.scan stat d skip).1).isSome ∧ some (lev.scan stat d skip).1 ≠ skip
  := by
  obtain ⟨x, hx⟩ := Option.isSome_iff_exists.mp hkey
  rcases @ArgMax.foldl_step _ _ _ (lev.key stat skip) (List.range lev.nowRunNum) d (-1)
    with ⟨-, hle⟩ | ⟨-, hfirst⟩
  · have hge := hle i (List.mem_range.mpr hi) x hx
    exact absurd (lt_of_key hx).1 hge.not_gt
  · have hfound := lt_of_key hfirst.key_eq
    use hfound.2.2, hfound.2.1

/-! ### Calls -/

/-- Two slots have runs with entries. -/
def TwoFilled (lev : LevelSlots ρ) (stat : ρ → RunStat) : Prop :=
  2 ≤ (lev.recencyPointer.filter fun i =>
    (lev.runArray i).any fun r => (stat r).nowEntryNum ≠ 0).length

theorem Inv.takeRecent_taken {n : ℕ} (h : Inv lev) (hn : n ≤ lev.nowRunNum) :
  ∃ srcs lev', LevelSlots.takeRecent n lev = .ok (srcs.map some, lev') ∧ Taken lev srcs lev'
    ∧ srcs.length = n
  := by
  obtain ⟨lev', hstep, hinv, hruns, hmax⟩ := h.takeRecent hn
  have hlen := h.length_runs
  refine ⟨_, lev', hstep, ⟨hinv, List.take_sublist _ _, ?_, ?_, hmax⟩, ?_⟩
  · rw [hruns]
    apply List.drop_sublist _ _
  · rw [hruns, List.take_append_drop]
  · rw [List.length_take]
    omega

/-- All slots of a full level are looked at. -/
theorem Inv.lt_nowRunNum (h : Inv lev) (hfull : lev.isFull = true) {i : ℕ}
    (hi : i ∈ lev.recencyPointer) :
  i < lev.nowRunNum
  := by
  have hlt := h.lt i hi
  have hle : lev.maxRunNum ≤ lev.nowRunNum := of_decide_eq_true hfull
  omega

/-- The runs for a compaction: all, or two of a full level. -/
theorem Inv.getCompactionTarget (h : Inv lev) (b : Bool) {n : ℕ}
    (hn : n = lev.nowRunNum ∨ n = 2 ∧ lev.isFull = true ∧ lev.TwoFilled stat) :
  ∃ srcs lev', lev.getCompactionTarget stat n b = .ok (srcs.map some, lev') ∧ Taken lev srcs lev'
    ∧ srcs.length = n
  := by
  unfold LevelSlots.getCompactionTarget
  by_cases hall : n = lev.nowRunNum
  · rw [if_pos hall]
    apply h.takeRecent_taken hall.le
  · rw [if_neg hall]
    obtain ⟨rfl, hfull, htwo⟩ := hn.resolve_left hall
    rw [if_pos rfl]
    obtain ⟨i, j, hi, hj, hij⟩ : ∃ i j, i ∈ lev.recencyPointer.filter (fun i =>
          (lev.runArray i).any fun r => (stat r).nowEntryNum ≠ 0)
        ∧ j ∈ lev.recencyPointer.filter (fun i =>
          (lev.runArray i).any fun r => (stat r).nowEntryNum ≠ 0) ∧ i ≠ j := by
      unfold TwoFilled at htwo
      have hnodup := h.nodup.filter fun i =>
        (lev.runArray i).any fun r => decide ((stat r).nowEntryNum ≠ 0)
      generalize lev.recencyPointer.filter (fun i =>
        (lev.runArray i).any fun r => decide ((stat r).nowEntryNum ≠ 0)) = l at *
      match l, htwo, hnodup with
      | i :: j :: l, _, hnodup =>
          use i, j, by simp, by simp
          rintro rfl
          simp at hnodup
    have hratio : ∀ {i : ℕ}, i ∈ lev.recencyPointer.filter (fun i =>
        (lev.runArray i).any fun r => (stat r).nowEntryNum ≠ 0) →
        i < lev.nowRunNum ∧ ∀ skip, some i ≠ skip → (lev.key stat skip i).isSome := by
      intro i hi
      obtain ⟨hmem, hany⟩ := List.mem_filter.mp hi
      obtain ⟨r, hr⟩ := Option.isSome_iff_exists.mp ((h.occupied i).mp hmem)
      rw [hr, Option.any_some] at hany
      use h.lt_nowRunNum hfull hmem
      intro skip hskip
      unfold key
      rw [if_neg hskip, hr]
      apply floatRatio_isSome (of_decide_eq_true hany)
    have htwo' : 2 ≤ lev.nowRunNum := by
      rw [h.count]
      apply htwo.trans (List.length_filter_le _ _)
    obtain ⟨hfirst, -⟩ := scan_spec uint32Max (hratio hi).1 ((hratio hi).2 none (by simp))
    generalize hscan : lev.scan stat uint32Max none = p at *
    obtain ⟨first, x⟩ := p
    dsimp only at hfirst ⊢
    obtain ⟨k, hk, hne⟩ : ∃ k, k < lev.nowRunNum ∧ (lev.key stat (some first) k).isSome := by
      by_cases heq : i = first
      · refine ⟨j, (hratio hj).1, (hratio hj).2 _ ?_⟩
        intro hsome
        apply hij (heq.trans (Option.some.inj hsome).symm)
      · refine ⟨i, (hratio hi).1, (hratio hi).2 _ ?_⟩
        intro hsome
        apply heq (Option.some.inj hsome)
    obtain ⟨hsecond, hdiff⟩ := scan_spec uint32Max hk hne
    generalize lev.scan stat uint32Max (some first) = p at *
    obtain ⟨second, y⟩ := p
    dsimp only at hsecond hdiff ⊢
    by_cases hzero : (if b = true then 0 else y) = 0
    · rw [if_pos hzero]
      apply h.takeRecent_taken htwo'
    · rw [if_neg hzero]
      obtain ⟨srcs, rest, lev', hstep, htaken, hlen⟩ := h.takeSorted first second
      rw [hstep]
      refine ⟨srcs, _, rfl, htaken, hlen.trans ?_⟩
      apply h.hits_eq ((h.occupied first).mpr hfirst) ((h.occupied second).mpr hsecond)
        fun heq => hdiff (congrArg some heq.symm)

theorem takeRecent_le {n : ℕ} :
  ∀ {lev : LevelSlots ρ} {r : List (Option ρ) × LevelSlots ρ},
    LevelSlots.takeRecent n lev = .ok r → n ≤ lev.recencyPointer.length
  := by
  induction n with
  | zero =>
      intro lev r _
      apply Nat.zero_le _
  | succ n ih =>
      intro lev r hstep
      unfold LevelSlots.takeRecent at hstep
      cases hlist : lev.recencyPointer with
      | nil =>
          rw [hlist] at hstep
          cases hstep
      | cons idx rest =>
          rw [hlist] at hstep
          obtain ⟨q, hq, -⟩ := bind_eq_ok.mp hstep
          have hle := ih hq
          rw [List.length_cons]
          apply Nat.succ_le_succ hle

/-- Whatever runs a compaction gets leave the level. -/
theorem Inv.taken_of_ok (h : Inv lev) {b : Bool} {n : ℕ} {r : List (Option ρ) × LevelSlots ρ}
    (hstep : lev.getCompactionTarget stat n b = .ok r) :
  ∃ srcs : List ρ, r.1 = srcs.map some ∧ Taken lev srcs r.2
  := by
  have hrecent : LevelSlots.takeRecent n lev = .ok r →
      ∃ srcs : List ρ, r.1 = srcs.map some ∧ Taken lev srcs r.2 := by
    intro hr
    have hle : n ≤ lev.nowRunNum := by
      rw [h.count]
      apply takeRecent_le hr
    obtain ⟨srcs, lev', hstep', htaken, -⟩ := h.takeRecent_taken hle
    rw [hr] at hstep'
    cases hstep'
    exact ⟨srcs, rfl, htaken⟩
  unfold LevelSlots.getCompactionTarget at hstep
  by_cases hall : n = lev.nowRunNum
  · rw [if_pos hall] at hstep
    apply hrecent hstep
  · rw [if_neg hall] at hstep
    by_cases htwo : n = 2
    · rw [if_pos htwo] at hstep
      subst htwo
      generalize lev.scan stat uint32Max none = p at hstep
      obtain ⟨first, x⟩ := p
      dsimp only at hstep
      generalize lev.scan stat uint32Max (some first) = p at hstep
      obtain ⟨second, y⟩ := p
      dsimp only at hstep
      by_cases hzero : (if b = true then 0 else y) = 0
      · rw [if_pos hzero] at hstep
        apply hrecent hstep
      · rw [if_neg hzero] at hstep
        obtain ⟨srcs, rest, lev', hsorted, htaken, -⟩ := h.takeSorted first second
        rw [hsorted] at hstep
        cases hstep
        exact ⟨srcs, rfl, htaken⟩
    · rw [if_neg htwo] at hstep
      cases hstep

/-- A run is taken out of its slot, or nothing happens. -/
theorem Inv.getMaxUnlinkedRun (h : Inv lev) (stat : ρ → RunStat) :
  Inv (lev.getMaxUnlinkedRun stat).2 ∧ (lev.getMaxUnlinkedRun stat).2.runs.Sublist lev.runs
    ∧ (lev.getMaxUnlinkedRun stat).2.maxRunNum = lev.maxRunNum
    ∧ ∀ r, (lev.getMaxUnlinkedRun stat).1 = some r →
      (lev.getMaxUnlinkedRun stat).2.nowRunNum + 1 = lev.nowRunNum
      ∧ ∃ l₁ l₂, lev.runs = l₁ ++ r :: l₂ ∧ (lev.getMaxUnlinkedRun stat).2.runs = l₁ ++ l₂
  := by
  unfold LevelSlots.getMaxUnlinkedRun
  generalize (lev.scan stat 0 none).1 = idx
  dsimp only
  by_cases hmem : idx ∈ lev.recencyPointer
  · rw [if_pos hmem]
    obtain ⟨l₁, l₂, hnot, hsplit, herase⟩ := List.exists_erase_eq hmem
    have hnot₂ : idx ∉ l₂ := by
      have hnodup := h.nodup
      rw [hsplit] at hnodup
      have hcons := List.perm_middle.nodup_iff.mp hnodup
      exact fun hin => (List.nodup_cons.mp hcons).1 (List.mem_append_right l₁ hin)
    obtain ⟨r, hr⟩ := Option.isSome_iff_exists.mp ((h.occupied idx).mp hmem)
    have hruns : lev.runs = l₁.filterMap lev.runArray ++ r :: l₂.filterMap lev.runArray := by
      unfold runs
      rw [hsplit, List.filterMap_append, List.filterMap_cons_some hr]
    have hruns' : ({ lev.clear idx with recencyPointer := lev.recencyPointer.erase idx } :
        LevelSlots ρ).runs = l₁.filterMap lev.runArray ++ l₂.filterMap lev.runArray := by
      unfold runs
      dsimp only
      rw [herase, List.filterMap_append]
      unfold LevelSlots.clear
      rw [filterMap_update hnot, filterMap_update hnot₂]
    have hcount : 0 < lev.nowRunNum := by
      rw [h.count]
      apply List.length_pos_of_mem hmem
    refine ⟨h.clear (List.perm_cons_erase hmem), ?_, rfl, ?_⟩
    · rw [hruns', hruns]
      apply List.Sublist.append_left (List.sublist_cons_self _ _) _
    · intro r' hr'
      rw [hr] at hr'
      cases hr'
      refine ⟨?_, _, _, hruns, hruns'⟩
      change lev.nowRunNum - 1 + 1 = lev.nowRunNum
      omega
  · rw [if_neg hmem]
    refine ⟨h, List.Sublist.refl _, rfl, ?_⟩
    intro r hr
    dsimp only at hr
    rw [h.occupied, hr] at hmem
    exact absurd rfl hmem

/-- Runs are put into a new level, the oldest first. -/
theorem insertAll_ok {arr : ℕ → Option ρ} {l : List ℕ} (hl : ∀ i ∈ l, (arr i).isSome) :
  ∀ {new : LevelSlots ρ}, Inv new → new.nowRunNum + l.length ≤ new.maxRunNum →
    ∃ new', l.foldlM (fun (new : LevelSlots ρ) idx => new.insertRun (arr idx)) new = .ok new'
      ∧ Inv new' ∧ new'.runs = l.reverse.filterMap arr ++ new.runs
      ∧ new'.maxRunNum = new.maxRunNum
  := by
  induction l with
  | nil =>
      intro new h _
      exact ⟨new, rfl, h, rfl, rfl⟩
  | cons i l ih =>
      intro new h hle
      obtain ⟨r, hr⟩ := Option.isSome_iff_exists.mp (hl i List.mem_cons_self)
      rw [List.length_cons] at hle
      obtain ⟨new₁, hstep, hinv, hruns, hmax⟩ := h.insertRun (by omega) r
      have hcount : new₁.nowRunNum = new.nowRunNum + 1 := by
        rw [← hinv.length_runs, hruns, List.length_cons, h.length_runs]
      obtain ⟨new₂, hrest, hinv₂, hruns₂, hmax₂⟩ := ih (fun j hj => hl j (List.mem_cons_of_mem i hj))
        hinv (by omega)
      refine ⟨new₂, ?_, hinv₂, ?_, hmax₂.trans hmax⟩
      · rw [List.foldlM_cons, hr]
        apply bind_eq_ok.mpr ⟨new₁, hstep, hrest⟩
      · rw [hruns₂, hruns, List.reverse_cons, List.filterMap_append, List.append_assoc,
          List.filterMap_cons_some hr]
        rfl

/-- The runs that are left go into the new level. -/
theorem Inv.rebuild (h : Inv lev) {n : ℕ} (hn : n ≠ lev.nowRunNum ∨ lev.nowRunNum = 0) :
  ∃ new, lev.rebuild n = .ok new ∧ Inv new ∧ new.runs = lev.runs ∧ new.maxRunNum = lev.maxRunNum
  := by
  unfold LevelSlots.rebuild
  by_cases hne : n ≠ lev.nowRunNum
  · rw [if_pos hne]
    have hle := h.le
    rw [h.count] at hle
    obtain ⟨new, hstep, hinv, hruns, hmax⟩ := @insertAll_ok ρ lev.runArray lev.recencyPointer.reverse
      (fun i hi => (h.occupied i).mp (List.mem_reverse.mp hi)) (init lev.maxRunNum) (inv_init _)
      (by
        rw [List.length_reverse]
        change 0 + _ ≤ lev.maxRunNum
        omega)
    refine ⟨new, hstep, hinv, ?_, hmax⟩
    rw [hruns, List.reverse_reverse]
    apply List.append_nil _
  · rw [if_neg hne]
    refine ⟨_, rfl, inv_init _, ?_, rfl⟩
    have hzero : lev.runs = [] := by
      apply List.eq_nil_of_length_eq_zero
      rw [h.length_runs]
      apply hn.resolve_left hne
    rw [hzero]
    rfl

end Level

/-! ### Runs of calls -/

section Runs

/-- The runs that have been inserted, the newest first. -/
def inserted (ops : List (LevelOp ρ)) : List ρ :=
  ops.reverse.filterMap fun op =>
    match op with
    | .insert r => some r
    | _ => none

/-- A run is inserted when the level is not full; a compaction takes all runs or two of a full
level, two of which have entries; and not as many runs are left as have been taken. -/
def Allowed (lev : LevelSlots ρ) : LevelOp ρ → Prop
  | .insert _ => lev.isFull = false
  | .target stat runNum =>
      runNum = lev.nowRunNum ∨ runNum = 2 ∧ lev.isFull = true ∧ lev.TwoFilled stat
  | .rebuild targetSrcNum => targetSrcNum ≠ lev.nowRunNum ∨ lev.nowRunNum = 0
  | .getMax _ => True

instance (lev : LevelSlots ρ) : (op : LevelOp ρ) → Decidable (lev.Allowed op)
  | .insert _ => inferInstanceAs (Decidable (lev.isFull = false))
  | .target stat runNum => inferInstanceAs (Decidable (runNum = lev.nowRunNum
      ∨ runNum = 2 ∧ lev.isFull = true ∧ 2 ≤ (lev.recencyPointer.filter fun i =>
        (lev.runArray i).any fun r => (stat r).nowEntryNum ≠ 0).length))
  | .rebuild targetSrcNum =>
      inferInstanceAs (Decidable (targetSrcNum ≠ lev.nowRunNum ∨ lev.nowRunNum = 0))
  | .getMax _ => isTrue trivial

theorem inserted_concat_insert (ops : List (LevelOp ρ)) (r : ρ) :
  inserted (ops ++ [.insert r]) = r :: inserted ops
  := by
  unfold inserted
  rw [List.reverse_append, List.reverse_singleton, List.singleton_append, List.filterMap_cons]

theorem sublist_inserted_concat (ops : List (LevelOp ρ)) (op : LevelOp ρ) :
  (inserted ops).Sublist (inserted (ops ++ [op]))
  := by
  unfold inserted
  rw [List.reverse_append, List.reverse_singleton, List.singleton_append]
  apply List.Sublist.filterMap _ (List.sublist_cons_self _ _)

/-- One call keeps the order. -/
theorem Inv.step {lev : LevelSlots ρ} {ops : List (LevelOp ρ)} {op : LevelOp ρ} (h : Inv lev)
    (hsub : lev.runs.Sublist (inserted ops)) (hop : lev.Allowed op) :
  ∃ lev', lev.step op = .ok lev' ∧ Inv lev' ∧ lev'.runs.Sublist (inserted (ops ++ [op]))
  := by
  have hmono := sublist_inserted_concat ops op
  cases op with
  | insert r =>
      have hlt : lev.nowRunNum < lev.maxRunNum := by
        have := of_decide_eq_false (show decide (lev.maxRunNum ≤ lev.nowRunNum) = false from hop)
        omega
      obtain ⟨lev', hstep, hinv, hruns, -⟩ := h.insertRun hlt r
      use lev', hstep, hinv
      rw [hruns, inserted_concat_insert]
      apply hsub.cons_cons r
  | target stat runNum =>
      obtain ⟨srcs, lev', hstep, htaken, hlen⟩ := h.getCompactionTarget false hop
      refine ⟨lev', bind_eq_ok.mpr ⟨_, hstep, bind_eq_ok.mpr ⟨(), require_eq_ok.mpr ?_, rfl⟩⟩,
        htaken.inv, (htaken.rest.trans hsub).trans hmono⟩
      rw [List.length_map]
      apply hlen
  | rebuild targetSrcNum =>
      obtain ⟨new, hstep, hinv, hruns, -⟩ := h.rebuild hop
      use new, hstep, hinv
      rw [hruns]
      apply hsub.trans hmono
  | getMax stat =>
      obtain ⟨hinv, hrest, -⟩ := h.getMaxUnlinkedRun stat
      exact ⟨_, rfl, hinv, (hrest.trans hsub).trans hmono⟩

end Runs

/-! ### All levels -/

section Disk

/-- A level that is in order and not full. -/
def Open (lev : LevelSlots ρ) : Prop := Inv lev ∧ lev.nowRunNum < lev.maxRunNum

theorem Open.isFull {lev : LevelSlots ρ} (h : Open lev) :
  lev.isFull = false
  := decide_eq_false (by have := h.2; omega)

theorem open_of_not_full {lev : LevelSlots ρ} (h : Inv lev) (hfull : ¬ lev.isFull = true) :
  Open lev
  := by
  use h
  unfold LevelSlots.isFull at hfull
  simpa using hfull

/-- A new level has at most the runs that are left. -/
theorem rebuild_le {lev new : LevelSlots ρ} (h : Inv lev) {n : ℕ} (hstep : lev.rebuild n = .ok new) :
  Inv new ∧ new.nowRunNum ≤ lev.nowRunNum ∧ new.maxRunNum = lev.maxRunNum
  := by
  by_cases hne : n ≠ lev.nowRunNum
  · obtain ⟨new', hstep', hinv, hruns, hmax⟩ := h.rebuild (.inl hne)
    rw [hstep] at hstep'
    cases hstep'
    refine ⟨hinv, ?_, hmax⟩
    rw [← hinv.length_runs, hruns, h.length_runs]
  · unfold LevelSlots.rebuild at hstep
    rw [if_neg hne] at hstep
    cases hstep
    exact ⟨inv_init _, Nat.zero_le _, rfl⟩

/-- An insertion succeeds when the level is not full. -/
theorem insertRun_ok {lev lev' : LevelSlots ρ} (h : Inv lev) {r : ρ}
    (hstep : lev.insertRun (some r) = .ok lev') :
  Inv lev' ∧ lev.nowRunNum < lev.maxRunNum ∧ lev'.nowRunNum = lev.nowRunNum + 1
    ∧ lev'.maxRunNum = lev.maxRunNum
  := by
  obtain ⟨u, hfull, -⟩ := bind_eq_ok.mp hstep
  have hlt := (open_of_not_full h (by rw [require_eq_ok.mp hfull]; simp)).2
  obtain ⟨lev'', hstep', hinv, hruns, hmax⟩ := h.insertRun hlt r
  rw [hstep] at hstep'
  cases hstep'
  refine ⟨hinv, hlt, ?_, hmax⟩
  rw [← hinv.length_runs, hruns, List.length_cons, h.length_runs]

/-- Runs that are taken leave the level. -/
theorem takeTargets_ok {lev lev' : LevelSlots ρ} {stat : ρ → RunStat} {n : ℕ} {b : Bool}
    (h : Inv lev) (hstep : lev.takeTargets stat n b = .ok lev') :
  Inv lev' ∧ lev'.nowRunNum + n = lev.nowRunNum ∧ lev'.maxRunNum = lev.maxRunNum
  := by
  obtain ⟨r, hget, hstep⟩ := bind_eq_ok.mp hstep
  obtain ⟨u, hres, hstep⟩ := bind_eq_ok.mp hstep
  cases hstep
  obtain ⟨srcs, hsrcs, htaken⟩ := h.taken_of_ok hget
  have hlen := (require_eq_ok.mp hres).1
  rw [hsrcs, List.length_map] at hlen
  rw [← hlen]
  use htaken.inv, htaken.count h, htaken.maxRunNum

/-- The loop of the compactions leaves no level full. -/
theorem compactionAnotherLevel_open {f : LevelFlush ρ} {rest : List (LevelSlots ρ)} :
  ∀ {i : ℕ} {lev : LevelSlots ρ} {disk : List (LevelSlots ρ)}, Inv lev → 0 < lev.maxRunNum →
    (∀ l ∈ rest, Open l) → compactionAnotherLevel f i lev rest = .ok disk → ∀ l ∈ disk, Open l
  := by
  induction rest with
  | nil =>
      intro i lev disk h _ _ hstep
      unfold compactionAnotherLevel at hstep
      by_cases hfull : lev.isFull = true
      · rw [if_pos hfull] at hstep
        obtain ⟨u, -, hstep⟩ := bind_eq_ok.mp hstep
        obtain ⟨left, hleft, hstep⟩ := bind_eq_ok.mp hstep
        obtain ⟨new, hnew, hstep⟩ := bind_eq_ok.mp hstep
        obtain ⟨new', hnew', hstep⟩ := bind_eq_ok.mp hstep
        cases hstep
        obtain ⟨hinv₁, hnow₁, hmax₁⟩ := takeTargets_ok h hleft
        obtain ⟨hinv₂, hnow₂, hmax₂⟩ := rebuild_le hinv₁ hnew
        obtain ⟨hinv₃, -, hnow₃, hmax₃⟩ := insertRun_ok hinv₂ hnew'
        have hle := h.le
        intro l hl
        rw [List.mem_singleton.mp hl]
        use hinv₃, by omega
      · rw [if_neg hfull] at hstep
        cases hstep
        intro l hl
        rw [List.mem_singleton.mp hl]
        apply open_of_not_full h hfull
  | cons next rest ih =>
      intro i lev disk h hpos hrest hstep
      unfold compactionAnotherLevel at hstep
      by_cases hfull : lev.isFull = true
      · rw [if_pos hfull] at hstep
        obtain ⟨left, hleft, hstep⟩ := bind_eq_ok.mp hstep
        obtain ⟨new, hnew, hstep⟩ := bind_eq_ok.mp hstep
        obtain ⟨next', hnext, hstep⟩ := bind_eq_ok.mp hstep
        obtain ⟨disk', hdisk, hstep⟩ := bind_eq_ok.mp hstep
        cases hstep
        obtain ⟨hinv₁, hnow₁, hmax₁⟩ := takeTargets_ok h hleft
        obtain ⟨hinv₂, hnow₂, hmax₂⟩ := rebuild_le hinv₁ hnew
        have hopen := hrest next List.mem_cons_self
        obtain ⟨hinv₃, hlt₃, -, hmax₃⟩ := insertRun_ok hopen.1 hnext
        have hall := ih hinv₃ (by omega) (fun l hl => hrest l (List.mem_cons_of_mem next hl)) hdisk
        intro l hl
        obtain rfl | hl := List.mem_cons.mp hl
        · use hinv₂, by omega
        · apply hall l hl
      · rw [if_neg hfull] at hstep
        cases hstep
        intro l hl
        obtain rfl | hl := List.mem_cons.mp hl
        · apply open_of_not_full h hfull
        · apply hrest l hl

/-- A run of the last level is rebuilt. -/
theorem forceRebuild_open {disk disk' : List (LevelSlots ρ)} {q : (ρ → RunStat) × ρ}
    (h : ∀ l ∈ disk, Open l) (hstep : forceRebuild disk q = .ok disk') :
  ∀ l ∈ disk', Open l
  := by
  obtain ⟨lev, hlast, hstep⟩ := bind_eq_ok.mp hstep
  have hlast := orThrow_eq_ok.mp hlast
  have hopen := h lev (List.mem_of_getLast? hlast)
  obtain ⟨hinv, -, hmax, hsome⟩ := hopen.1.getMaxUnlinkedRun q.1
  dsimp only at hstep
  generalize lev.getMaxUnlinkedRun q.1 = r at *
  obtain ⟨target, lev₁⟩ := r
  obtain ⟨u, htarget, hstep⟩ := bind_eq_ok.mp hstep
  obtain ⟨lev₂, hinsert, hstep⟩ := bind_eq_ok.mp hstep
  cases hstep
  obtain ⟨r, hr⟩ := Option.isSome_iff_exists.mp (require_eq_ok.mp htarget)
  obtain ⟨hcount, -⟩ := hsome r hr
  obtain ⟨hinv₂, -, hnow₂, hmax₂⟩ := insertRun_ok hinv hinsert
  have hlt := hopen.2
  dsimp only at hcount hmax hnow₂ hmax₂
  intro l hl
  obtain hl | hl := List.mem_append.mp hl
  · apply h l (List.mem_of_mem_dropLast hl)
  · rw [List.mem_singleton.mp hl]
    use hinv₂, by omega

/-- A flush leaves no level full. -/
theorem compactionFlush_open {disk disk' : List (LevelSlots ρ)} {f : LevelFlush ρ}
    (h : ∀ l ∈ disk, Open l) (hstep : compactionFlush disk f = .ok disk') :
  ∀ l ∈ disk', Open l
  := by
  unfold compactionFlush at hstep
  split at hstep
  · cases hstep
  · rename_i lev rest
    obtain ⟨lev₁, hlev, hstep⟩ := bind_eq_ok.mp hstep
    obtain ⟨disk₁, hdisk, hforced⟩ := bind_eq_ok.mp hstep
    have hopen := h lev List.mem_cons_self
    obtain ⟨hinv, hlt, -, hmax⟩ := insertRun_ok hopen.1 hlev
    have hall := compactionAnotherLevel_open hinv (by omega)
      (fun l hl => h l (List.mem_cons_of_mem lev hl)) hdisk
    apply foldlM_invariant (fun _ disk => ∀ l ∈ disk, Open l)
      (fun _ _ _ _ h hstep => forceRebuild_open h hstep) hall hforced

end Disk

/-! ### The order of a level -/

/-- The order of a level: the list has the occupied slots once each, and their runs are in the
order in which they have been inserted, the newest first.  The runs for a compaction are
different runs in that order, the others stay in order, also in the new level. -/
structure InOrder (lev : LevelSlots ρ) (hist : List ρ) : Prop where
  inv : Inv lev
  newest : lev.runs.Sublist hist
  targets : ∀ stat n b, lev.Allowed (.target stat n) →
    ∃ srcs lev', lev.getCompactionTarget stat n b = .ok (srcs.map some, lev') ∧ srcs.length = n
      ∧ srcs.Nodup ∧ srcs.Sublist lev.runs ∧ lev'.runs.Sublist lev.runs
      ∧ (srcs ++ lev'.runs).Perm lev.runs
  rebuilt : ∀ n, lev.Allowed (.rebuild n) → ∃ new, lev.rebuild n = .ok new ∧ new.runs = lev.runs

/-- In every run of calls in which a compaction finds two runs with entries and does not leave as
many runs as it takes, the level is in order; and no level is full after a flush. -/
theorem level_inOrder (maxRunNum : ℕ) (ops : List (LevelOp ρ)) (hnodup : (inserted ops).Nodup)
    (hops : Guarded step Allowed (init maxRunNum) ops) (maxRunNums : List ℕ)
    (hpos : ∀ m ∈ maxRunNums, 0 < m) (flushes : List (LevelFlush ρ)) (disk : List (LevelSlots ρ))
    (hdisk : run compactionFlush (maxRunNums.map init) flushes = .ok disk) :
  (∃ lev, run step (init maxRunNum) ops = .ok lev ∧ lev.InOrder (inserted ops))
    ∧ ∀ lev ∈ disk, lev.isFull = false
  := by
  constructor
  · obtain ⟨lev, hrun, hinv, hsub⟩ := run_progress
      (fun h lev => Inv lev ∧ lev.runs.Sublist (inserted h))
      (fun _ _ _ h hop => h.1.step h.2 hop) (h := [])
      ⟨inv_init maxRunNum, List.Sublist.refl []⟩ hops
    rw [List.nil_append] at hsub
    refine ⟨lev, hrun, hinv, hsub, ?_, ?_⟩
    · intro stat n b hn
      obtain ⟨srcs, lev', hstep, htaken, hlen⟩ := hinv.getCompactionTarget b hn
      refine ⟨srcs, lev', hstep, hlen, ?_, htaken.targets, htaken.rest, htaken.perm⟩
      apply List.Nodup.sublist (htaken.targets.trans hsub) hnodup
    · intro n hn
      obtain ⟨new, hstep, -, hruns, -⟩ := hinv.rebuild hn
      use new, hstep, hruns
  · have hopen : ∀ lev ∈ disk, Open lev := by
      apply run_preserves (fun disk => ∀ lev ∈ disk, Open lev)
        (fun disk f disk' h _ hstep => compactionFlush_open h hstep) ?_ (guarded_true _ _) hdisk
      intro lev hlev
      obtain ⟨m, hm, rfl⟩ := List.mem_map.mp hlev
      use inv_init m, hpos m hm
    intro lev hlev
    apply (hopen lev hlev).isFull

/-- Two runs of three are merged. -/
def mergeTwo : List (LevelOp ℕ) :=
  [.insert 0, .insert 1, .insert 2, .target (fun r => ⟨r, 4⟩) 2, .rebuild 2, .insert 3,
    .getMax fun r => ⟨r, 4⟩]

/-- The first level is merged into the second one. -/
def flushOnce : LevelFlush ℕ := ⟨0, fun i => i + 1, fun r => ⟨r, 4⟩, []⟩

theorem level_inOrder_mergeTwo :
  (∃ lev, run step (init 3) mergeTwo = .ok lev ∧ lev.InOrder [3, 2, 1, 0])
    ∧ ∃ disk, run compactionFlush ([1, 2].map init) [flushOnce] = .ok disk
      ∧ ∀ lev ∈ disk, lev.isFull = false
  := by
  have hall := level_inOrder 3 mergeTwo (by decide) (by decide +kernel) [1, 2] (by decide)
    [flushOnce] _ rfl
  exact ⟨hall.1, _, rfl, hall.2⟩

/-- Two runs of four are merged: the other two are lost. -/
theorem not_inOrder_fourRuns :
  (∃ lev, run step (init 4) [.insert 0, .insert 1, .insert 2, .insert 3,
      .target (fun _ => ⟨0, 4⟩) 2] = .ok lev ∧ lev.runs = [1, 0])
    ∧ ∃ new, run step (init 4) [.insert 0, .insert 1, .insert 2, .insert 3,
      .target (fun _ => ⟨0, 4⟩) 2, .rebuild 2] = .ok new ∧ new.runs = []
  := by
  constructor
  · have hruns : (run step (init 4) [.insert 0, .insert 1, .insert 2, .insert 3,
        .target (fun _ => ⟨0, 4⟩) 2]).map runs = .ok [1, 0] := by decide +kernel
    obtain ⟨lev, hlev, hruns⟩ := map_eq_ok hruns
    use lev, hlev, hruns
  · have hruns : (run step (init 4) [.insert 0, .insert 1, .insert 2, .insert 3,
        .target (fun _ => ⟨0, 4⟩) 2, .rebuild 2]).map runs = .ok ([] : List ℕ) := by decide +kernel
    obtain ⟨new, hnew, hruns⟩ := map_eq_ok hruns
    use new, hnew, hruns

end LevelSlots

end AppL
