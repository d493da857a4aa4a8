import Mathlib.Order.Interval.Finset.Nat
import AppL.Lsm.Shortcut

/-!
# Owners of lbas

What the operations of the shortcut do to the map and to the infos: an lba that is linked
gets a new owner, its old owner counts one lba more that it has lost, and the ranks of the
runs stay the same.
-/

namespace AppL

open Transition

theorem subInt32_self (a : ℕ) :
  subInt32 a a = 0
  := by simp [subInt32]

theorem recencyCmp_self (i : ScInfo) :
  recencyCmp i i = 0
  := by simp [recencyCmp, subInt32_self]

/-- The level and the recency of an info, and whether it is being compacted, are all that a
comparison looks at. -/
structure ScInfo.SameRank (a b : ScInfo) : Prop where
  levelIdx : a.levelIdx = b.levelIdx
  recency : a.recency = b.recency
  nowCompaction : a.nowCompaction = b.nowCompaction
  inUse : a.inUse = b.inUse

namespace ScInfo

theorem SameRank.refl (a : ScInfo) :
  a.SameRank a
  := ⟨rfl, rfl, rfl, rfl⟩

theorem SameRank.trans {a b c : ScInfo} (h₁ : a.SameRank b) (h₂ : b.SameRank c) :
  a.SameRank c
  := ⟨h₁.1.trans h₂.1, h₁.2.trans h₂.2, h₁.3.trans h₂.3, h₁.4.trans h₂.4⟩

theorem SameRank.recencyCmp {a a' b b' : ScInfo} (ha : a.SameRank a') (hb : b.SameRank b') :
  recencyCmp a b = recencyCmp a' b'
  := by
  unfold AppL.recencyCmp
  rw [ha.levelIdx, ha.recency, hb.levelIdx, hb.recency]

end ScInfo

namespace ShortcutMaster

variable {sc sc' : ShortcutMaster} {idx lba : ℕ}

theorem sameRank_update {m : ℕ → ScInfo} {v : ScInfo} (h : v.SameRank (m idx)) (i : ℕ) :
  (Function.update m idx v i).SameRank (m i)
  := by
  rw [Function.update_apply]
  split
  · rename_i heq
    rw [heq]
    apply h
  · exact ⟨rfl, rfl, rfl, rfl⟩

/-- `idx` has become the owner of the lba. -/
structure Takes (idx lba : ℕ) (sc sc' : ShortcutMaster) : Prop where
  map : sc'.scMap = Function.update sc.scMap lba (some idx)
  rank : ∀ i, (sc'.infoSet i).SameRank (sc.infoSet i)
  freeQ : sc'.freeQ = sc.freeQ
  nowRecency : sc'.nowRecency = sc.nowRecency

/-- The owner of the lba, if there is one, has lost one lba more. -/
def Unlinks (lba : ℕ) (sc sc' : ShortcutMaster) : Prop :=
  ∀ i, (sc'.infoSet i).unlinkedLbaNum
    = (sc.infoSet i).unlinkedLbaNum + if sc.scMap lba = some i then 1 else 0

theorem linkLba_takes (sc : ShortcutMaster) (idx lba : ℕ) :
  Takes idx lba sc (sc.linkLba idx lba)
  where
    map := rfl
    rank i := by
      simp only [linkLba, updateInfo]
      apply sameRank_update
      exact ⟨rfl, rfl, rfl, rfl⟩
    freeQ := rfl
    nowRecency := rfl

theorem linkLba_unlinked (i : ℕ) :
  ((sc.linkLba idx lba).infoSet i).unlinkedLbaNum = (sc.infoSet i).unlinkedLbaNum
  := by
  simp only [linkLba, updateInfo, Function.update_apply]
  split
  · rename_i heq
    rw [heq]
  · rfl

/-- `shortcut_unlink_lba` of the owner and `shortcut_link_lba` of another run. -/
theorem unlinkLba_linkLba {owner : ℕ} (h : sc.scMap lba = some owner) :
  Takes idx lba sc ((sc.unlinkLba owner lba).linkLba idx lba) ∧
    Unlinks lba sc ((sc.unlinkLba owner lba).linkLba idx lba)
  := by
  have hlink := linkLba_takes (sc.unlinkLba owner lba) idx lba
  have hne : sc.scMap lba ≠ none := by simp [h]
  constructor
  · refine ⟨?_, ?_, ?_, ?_⟩
    · rw [hlink.map, unlinkLba, if_neg hne]
      apply Function.update_idem
    · intro i
      apply (hlink.rank i).trans
      simp only [unlinkLba, if_neg hne, updateInfo]
      apply sameRank_update
      exact ⟨rfl, rfl, rfl, rfl⟩
    · rw [hlink.freeQ, unlinkLba, if_neg hne]
      rfl
    · rw [hlink.nowRecency, unlinkLba, if_neg hne]
      rfl
  · intro i
    rw [linkLba_unlinked, unlinkLba, if_neg hne, h]
    simp only [updateInfo, Function.update_apply, Option.some.injEq]
    by_cases hi : i = owner
    · simp [hi]
    · simp [hi, Ne.symm hi]

/-- The two outcomes of `shortcut_validity_check_and_link`. -/
theorem validityCheckAndLink_cases (sc : ShortcutMaster) (src idx lba : ℕ) :
  ((sc.validityCheckAndLink src idx lba).1 = false ∧
    (sc.validityCheckAndLink src idx lba).2 = sc ∧
    ∃ owner, sc.scMap lba = some owner ∧ (sc.infoSet owner).nowCompaction = false ∧
      0 < recencyCmp (sc.infoSet owner) (sc.infoSet src)) ∨
  ((sc.validityCheckAndLink src idx lba).1 = true ∧
    Takes idx lba sc (sc.validityCheckAndLink src idx lba).2 ∧
    ((∀ owner, sc.scMap lba = some owner → (sc.infoSet owner).inUse = true) →
      Unlinks lba sc (sc.validityCheckAndLink src idx lba).2))
  := by
  cases hs : sc.scMap lba with
  | none =>
      simp only [validityCheckAndLink, hs]
      refine .inr ⟨trivial, linkLba_takes _ _ _, ?_⟩
      intro _ i
      rw [linkLba_unlinked, hs]
      simp
  | some owner =>
      simp only [validityCheckAndLink, hs]
      split
      · refine .inr ⟨rfl, ?_⟩
        by_cases huse : (sc.infoSet owner).inUse = true
        · simp only [huse, if_true]
          use (unlinkLba_linkLba hs).1, fun _ => (unlinkLba_linkLba hs).2
        · simp only [huse]
          use linkLba_takes _ _ _
          intro h
          exact absurd (h owner rfl) huse
      · rename_i hold
        rw [not_or] at hold
        refine .inl ⟨rfl, rfl, owner, rfl, ?_, ?_⟩
        · simpa using hold.1
        · apply Int.not_le.mp hold.2

/-- A turn of the loop of `shortcut_link_bulk_lba`. -/
theorem linkBulkOne_ok (h : linkBulkOne idx sc lba = .ok sc') :
  Takes idx lba sc sc' ∧ Unlinks lba sc sc' ∧ ∃ owner, sc.scMap lba = some owner
  := by
  unfold linkBulkOne at h
  cases hs : sc.scMap lba with
  | none =>
      rw [hs] at h
      cases h
  | some owner =>
      simp only [hs] at h
      cases h
      refine ⟨⟨rfl, ?_, rfl, rfl⟩, ?_, owner, rfl⟩
      · intro i
        simp only [updateInfo]
        apply ScInfo.SameRank.trans (sameRank_update _ i) (sameRank_update _ i)
        · exact ⟨rfl, rfl, rfl, rfl⟩
        · exact ⟨rfl, rfl, rfl, rfl⟩
      · intro i
        have hfst : ∀ j, (Function.update sc.infoSet idx { sc.infoSet idx with
            linkedLbaNum := (sc.infoSet idx).linkedLbaNum + 1 } j).unlinkedLbaNum
            = (sc.infoSet j).unlinkedLbaNum := by
          intro j
          rw [Function.update_apply]
          split
          · rename_i heq
            rw [heq]
          · rfl
        rw [hs]
        simp only [updateInfo, Option.some.injEq]
        by_cases hi : i = owner
        · rw [hi, Function.update_self, if_pos rfl, ← hfst owner]
        · rw [Function.update_of_ne hi, if_neg (Ne.symm hi), hfst, Nat.add_zero]

/-! ### Newest runs -/

/-- No lba has an owner that is newer than the run with info `idx`. -/
def Newest (sc : ShortcutMaster) (idx : ℕ) : Prop :=
  ∀ lba owner, sc.scMap lba = some owner →
    (sc.infoSet owner).nowCompaction = true ∨
      recencyCmp (sc.infoSet owner) (sc.infoSet idx) ≤ 0

/-- A newest run takes every lba it asks for, and stays newest. -/
theorem Newest.validityCheckAndLink (h : sc.Newest idx) (lba : ℕ) :
  (sc.validityCheckAndLink idx idx lba).1 = true ∧
    (sc.validityCheckAndLink idx idx lba).2.Newest idx
  := by
  rcases validityCheckAndLink_cases sc idx idx lba with
    ⟨-, -, owner, howner, hflag, hcmp⟩ | ⟨htrue, htakes, -⟩
  · rcases h lba owner howner with hc | hc
    · rw [hflag] at hc
      cases hc
    · exact absurd hcmp (Int.not_lt.mpr hc)
  · use htrue
    intro lba' owner howner
    rw [htakes.map, Function.update_apply] at howner
    split at howner
    · cases howner
      right
      apply Int.le_of_eq (recencyCmp_self _)
    · rw [(htakes.rank owner).recencyCmp (htakes.rank idx), (htakes.rank owner).nowCompaction]
      apply h lba' owner howner

/-! ### Accounting -/

/-- The lbas below `range` that `i` owns. -/
def owned (sc : ShortcutMaster) (range i : ℕ) : Finset ℕ :=
  (Finset.range range).filter fun lba => sc.scMap lba = some i

/-- The lbas that `i` has lost and those that it owns. -/
def total (sc : ShortcutMaster) (range i : ℕ) : ℕ :=
  (sc.infoSet i).unlinkedLbaNum + (sc.owned range i).card

theorem mem_owned {range i : ℕ} :
  lba ∈ sc.owned range i ↔ lba < range ∧ sc.scMap lba = some i
  := by rw [owned, Finset.mem_filter, Finset.mem_range]

/-- Who takes an lba has one more in total, and for all others the total stays. -/
theorem Takes.total {range : ℕ} (h : Takes idx lba sc sc') (hu : Unlinks lba sc sc')
    (hlba : lba < range) (i : ℕ) :
  sc'.total range i = sc.total range i + if i = idx then 1 else 0
  := by
  have hmem : ∀ x, x ∈ sc'.owned range i ↔
      x < range ∧ (if x = lba then some idx else sc.scMap x) = some i := by
    intro x
    rw [mem_owned, h.map, Function.update_apply]
  rw [ShortcutMaster.total, ShortcutMaster.total, hu i]
  by_cases hi : i = idx
  · rw [if_pos hi]
    have hins : sc'.owned range i = insert lba (sc.owned range i) := by
      ext x
      rw [hmem, Finset.mem_insert, mem_owned]
      by_cases hx : x = lba
      · simp [hx, hi, hlba]
      · simp [hx]
    rw [hins]
    by_cases howner : sc.scMap lba = some i
    · rw [if_pos howner, Finset.insert_eq_of_mem (mem_owned.mpr ⟨hlba, howner⟩)]
      omega
    · rw [if_neg howner, Finset.card_insert_of_notMem]
      · omega
      · intro hmem
        apply howner (mem_owned.mp hmem).2
  · rw [if_neg hi]
    have hera : sc'.owned range i = (sc.owned range i).erase lba := by
      ext x
      rw [hmem, Finset.mem_erase, mem_owned]
      by_cases hx : x = lba
      · simp [hx, Ne.symm hi]
      · simp [hx]
    rw [hera]
    by_cases howner : sc.scMap lba = some i
    · rw [if_pos howner, Nat.add_assoc, Nat.add_comm 1,
        Finset.card_erase_add_one (mem_owned.mpr ⟨hlba, howner⟩), Nat.add_zero]
    · rw [if_neg howner, Finset.erase_eq_of_notMem]
      · rfl
      · intro hmem
        apply howner (mem_owned.mp hmem).2

/-- `shortcut_link_bulk_lba` makes `idx` the owner of all lbas. -/
theorem linkBulkLba_ok {lbas : List ℕ} :
  ∀ {sc : ShortcutMaster}, sc.linkBulkLba idx lbas = .ok sc' →
    (∀ x, sc'.scMap x = if x ∈ lbas then some idx else sc.scMap x) ∧
    (∀ i, (sc'.infoSet i).SameRank (sc.infoSet i)) ∧ sc'.freeQ = sc.freeQ ∧
    sc'.nowRecency = sc.nowRecency ∧
    ∀ range, (∀ lba ∈ lbas, lba < range) → ∀ i,
      sc'.total range i = sc.total range i + if i = idx then lbas.length else 0
  := by
  induction lbas with
  | nil =>
      intro sc h
      cases h
      refine ⟨by simp, fun i => ScInfo.SameRank.refl _, rfl, rfl, ?_⟩
      intro range _ i
      simp
  | cons lba lbas ih =>
      intro sc h
      rw [linkBulkLba, List.foldlM_cons, bind_eq_ok] at h
      obtain ⟨sc₁, hone, hrest⟩ := h
      obtain ⟨htakes, hunlinks, -⟩ := linkBulkOne_ok hone
      obtain ⟨hmap, hrank, hfree, hnow, htotal⟩ := ih hrest
      refine ⟨?_, ?_, hfree.trans htakes.freeQ, hnow.trans htakes.nowRecency, ?_⟩
      · intro x
        rw [hmap, htakes.map, Function.update_apply]
        by_cases hx : x ∈ lbas
        · simp [hx]
        · simp [hx]
      · intro i
        apply (hrank i).trans (htakes.rank i)
      · intro range hlt i
        rw [htotal range (fun l hl => hlt l (by simp [hl])) i,
          htakes.total hunlinks (hlt lba (by simp))]
        split
        · rw [List.length_cons]
          omega
        · rfl

end ShortcutMaster

end AppL
