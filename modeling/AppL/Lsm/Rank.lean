import AppL.Lib.Directory
import AppL.Lsm.Merging

/-!
# Ranks

The rank of a run is its level and its recency.  The validity checks of the shortcut compare the
rank of the owner of an lba with that of another run, and a copy that fails a check is outranked
in the directory of the shortcut.
-/

namespace AppL

open Transition Directory

/-- `__get_recency_cmp` is positive for these levels and recencies. -/
def Outranks (a b : ℕ × ℕ) : Prop :=
  a.1 < b.1 ∨ a.1 = b.1 ∧ 0 < subInt32 a.2 b.2

theorem Outranks.level_le {a b : ℕ × ℕ} (h : Outranks a b) :
  a.1 ≤ b.1
  := by
  rcases h with h | ⟨h, -⟩
  · apply Nat.le_of_lt h
  · apply Nat.le_of_eq h

theorem outranks_of_le {a b : ℕ × ℕ} (hlevel : a.1 ≤ b.1) (hrec : 0 < subInt32 a.2 b.2) :
  Outranks a b
  := by
  rcases Nat.lt_or_eq_of_le hlevel with h | h
  · left
    apply h
  · right
    use h, hrec

theorem recencyCmp_pos {a b : ScInfo} :
  0 < recencyCmp a b ↔ Outranks (a.levelIdx, a.recency) (b.levelIdx, b.recency)
  := by
  unfold recencyCmp Outranks
  split
  · rename_i h
    simp [h]
  · rename_i h
    split
    · rename_i h'
      simp only [h, false_or]
      omega
    · rename_i h'
      have heq : a.levelIdx = b.levelIdx := by omega
      simp [heq]

/-- The copy at an entry, as one of the directory. -/
def Copy.version {δ : Type} (c : Copy δ) : Version ℕ δ (ℕ × ℕ) := ⟨c.lba, c.data, c.orig⟩

namespace ShortcutMaster

variable {sc sc' : ShortcutMaster} {idx lba : ℕ}

/-- The level and the recency of a run. -/
def rank (sc : ShortcutMaster) (i : ℕ) : ℕ × ℕ :=
  ((sc.infoSet i).levelIdx, (sc.infoSet i).recency)

theorem rank_eq {i : ℕ} (h : (sc'.infoSet i).SameRank (sc.infoSet i)) :
  sc'.rank i = sc.rank i
  := by rw [rank, rank, h.levelIdx, h.recency]

theorem validityCheckLba_false :
  sc.validityCheckLba idx lba = false ↔
    ∃ o, sc.scMap lba = some o ∧ Outranks (sc.rank o) (sc.rank idx)
  := by
  unfold validityCheckLba
  cases sc.scMap lba with
  | none => simp
  | some o =>
      simp only [decide_eq_false_iff_not, Int.not_le, recencyCmp_pos, Option.some.injEq,
        exists_eq_left']
      rfl

theorem validityCheckByValue_false {level recency : ℕ} :
  sc.validityCheckByValue idx level recency lba = false ↔
    ∃ o, sc.scMap lba = some o ∧ idx ≠ o ∧ Outranks (sc.rank o) (level, recency)
  := by
  unfold validityCheckByValue
  cases sc.scMap lba with
  | none => simp
  | some o =>
      dsimp only
      split
      · rename_i heq
        simp [heq]
      · rename_i hne
        simp only [decide_eq_false_iff_not, Int.not_le, recencyCmp_pos, Option.some.injEq,
          exists_eq_left', ne_eq, hne, not_false_eq_true, true_and]
        rfl

/-- The checks of a merge find out which copies are outranked. -/
theorem oldEntry_iff {δ : Type} {dev : Dev δ} {e : Entry} (hne : sc.scMap e.lba ≠ some idx) :
  sc.oldEntry idx e = true ↔ Outranked Outranks sc.scMap sc.rank (idx, (e.copy dev).version)
  := by
  simp only [oldEntry, Bool.or_eq_true, Bool.not_eq_true', validityCheckLba_false, Outranked,
    Copy.version, Entry.copy, Option.any_eq_true, validityCheckByValue_false]
  constructor
  · rintro (⟨o, ho, hout⟩ | ⟨s, hs, o, ho, -, hout⟩)
    · use o, ho, .inl hout
    · use o, ho, .inr ⟨s, hs, hout⟩
  · rintro ⟨o, ho, hout | ⟨s, hs, hout⟩⟩
    · left
      use o, ho, hout
    · refine .inr ⟨s, hs, o, ho, ?_, hout⟩
      rintro rfl
      apply hne ho

/-! ### Ranks that stay -/

/-- A new run gets its level and the next recency, and all others keep theirs. -/
theorem addRun_rank {level : ℕ} (h : sc.addRun level = .ok (idx, sc')) :
  sc'.rank idx = (level, sc.nowRecency) ∧ ∀ i, i ≠ idx → sc'.rank i = sc.rank i
  := by
  unfold addRun at h
  split at h
  · cases h
  · split at h
    · cases h
    · cases h
      constructor
      · simp [rank, updateInfo]
      · intro i hi
        simp [rank, updateInfo, Function.update_of_ne hi]

theorem release_rank (sc : ShortcutMaster) (idx i : ℕ) :
  (sc.release idx).rank i = sc.rank i
  := by
  simp only [rank, release, updateInfo, Function.update_apply]
  split
  · rename_i heq
    rw [heq]
  · rfl

theorem setCompactionFlag_rank {α : Type} (f : α → ℕ) (flag : Bool) (l : List α) (i : ℕ) :
  ∀ sc : ShortcutMaster,
    (l.foldl (fun sc a => sc.setCompactionFlag (f a) flag) sc).rank i = sc.rank i
  := by
  induction l with
  | nil => exact fun _ => rfl
  | cons a l ih =>
      intro sc
      rw [List.foldl_cons, ih]
      simp only [rank, setCompactionFlag, updateInfo, Function.update_apply]
      split
      · rename_i heq
        rw [heq]
      · rfl

end ShortcutMaster

end AppL
