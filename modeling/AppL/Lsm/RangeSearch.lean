import AppL.Lsm.Disjoint

/-!
# Searching the ranges of a sorted table

When the ranges of the entries are in order, one behind the other, `spm_find_target_idx` finds
the entry that covers an lba, and `spm_joint_check` one that meets the range of a target.
-/

namespace AppL

instance decidableCovers (ste : Ste) (lba : ℕ) : Decidable (ste.Covers lba) :=
  inferInstanceAs (Decidable (ste.startLba ≤ lba ∧ lba ≤ ste.endLba))

/-- The ranges of two blocks have an lba in common. -/
def Ste.Joint (a b : Ste) : Prop := ∃ lba, a.Covers lba ∧ b.Covers lba

theorem Ste.not_apart {a b : Ste} :
  ¬ a.Apart b ↔ b.startLba ≤ a.endLba ∧ a.startLba ≤ b.endLba
  := by simp only [Ste.Apart, not_or, not_lt]

theorem Ste.joint_iff {a b : Ste} (ha : a.startLba ≤ a.endLba) (hb : b.startLba ≤ b.endLba) :
  a.Joint b ↔ ¬ a.Apart b
  := by
  rw [Ste.not_apart]
  constructor
  · rintro ⟨lba, ⟨hal, hau⟩, hbl, hbu⟩
    use hbl.trans hau, hal.trans hbu
  · intro hmeet
    refine ⟨max a.startLba b.startLba, ⟨le_max_left _ _, ?_⟩, ⟨le_max_right _ _, ?_⟩⟩
    · apply max_le ha hmeet.1
    · apply max_le hmeet.2 hb

namespace StArray

variable {stes : List Ste} {spm : ℕ → Ste} {sa : StArray}

/-- While an entry between the bounds covers the lba, `spm_find_target_idx` goes on until it is
found. -/
theorem findTargetLoop_covers (hr : Ranged stes) (hspm : ∀ i ste, stes[i]? = some ste → spm i = ste)
    {lba i : ℕ} {ste : Ste} (hi : stes[i]? = some ste) (hc : ste.Covers lba) (fuel : ℕ) :
  ∀ {s e : ℕ}, s ≤ i → i < e → e ≤ stes.length → e < s + fuel →
    findTargetLoop spm lba fuel s e = some i
  := by
  induction fuel with
  | zero =>
      intro s e hs he _ hf
      omega
  | succ fuel ih =>
      intro s e hs he hlen hf
      obtain ⟨hstart, hend⟩ := hc
      have hmid : (s + (e - 1)) / 2 < stes.length := by omega
      obtain ⟨mid, hm⟩ : ∃ mid, stes[(s + (e - 1)) / 2]? = some mid :=
        ⟨_, List.getElem?_eq_getElem hmid⟩
      have hle := hr.1 mid (List.mem_of_getElem? hm)
      unfold findTargetLoop
      rw [if_neg (by omega)]
      dsimp only
      rw [hspm _ _ hm]
      have hsame : mid.Covers lba → (s + (e - 1)) / 2 = i := by
        intro hcov
        apply hr.unique hm hi hcov ⟨hstart, hend⟩
      split
      · rename_i heq
        rw [hsame ⟨by omega, by omega⟩]
      · split
        · rename_i hlt
          have hbelow : i < (s + (e - 1)) / 2 := by
            by_contra hge
            rcases Nat.lt_or_eq_of_le (Nat.le_of_not_lt hge) with hgt | heq
            · have := hr.lt hgt hm hi
              omega
            · rw [heq, hi] at hm
              cases hm
              omega
          apply ih hs hbelow (by omega) (by omega)
        · split
          · rw [hsame ⟨by omega, by omega⟩]
          · have habove : (s + (e - 1)) / 2 < i := by
              by_contra hge
              rcases Nat.lt_or_eq_of_le (Nat.le_of_not_lt hge) with hlt | heq
              · have := hr.lt hlt hi hm
                omega
              · rw [← heq, hi] at hm
                cases hm
                omega
            apply ih habove he hlen (by omega)

/-- `spm_joint_check` finds an entry whose range meets that of the target. -/
theorem jointCheckLoop_some (hr : Ranged stes) (hspm : ∀ i ste, stes[i]? = some ste → spm i = ste)
    {target : Ste} (ht : target.startLba ≤ target.endLba) {i : ℕ} (fuel : ℕ) :
  ∀ {s e : ℕ}, e ≤ stes.length → jointCheckLoop spm target fuel s e = some i →
    ∃ ste, stes[i]? = some ste ∧ ¬ ste.Apart target
  := by
  induction fuel with
  | zero =>
      intro s e _ h
      cases h
  | succ fuel ih =>
      intro s e hlen h
      unfold jointCheckLoop at h
      split at h
      · cases h
      · rename_i hlt
        have hmid : (s + (e - 1)) / 2 < stes.length := by omega
        obtain ⟨mid, hm⟩ : ∃ mid, stes[(s + (e - 1)) / 2]? = some mid :=
          ⟨_, List.getElem?_eq_getElem hmid⟩
        have hle := hr.1 mid (List.mem_of_getElem? hm)
        dsimp only at h
        rw [hspm _ _ hm] at h
        have hfound : target.startLba ≤ mid.endLba ∧ mid.startLba ≤ target.endLba →
            (s + (e - 1)) / 2 = i → ∃ ste, stes[i]? = some ste ∧ ¬ ste.Apart target := by
          rintro hmeet rfl
          use mid, hm, Ste.not_apart.mpr hmeet
        split at h
        · apply hfound ⟨by omega, by omega⟩ (Option.some.inj h)
        · split at h
          · split at h
            · apply hfound ⟨by omega, by omega⟩ (Option.some.inj h)
            · apply ih hlen h
          · split at h
            · apply hfound ⟨by omega, by omega⟩ (Option.some.inj h)
            · apply ih (by omega) h

/-- Without an index to skip, `spm_joint_check_debug` finds something exactly when a range meets
that of the target; it may stop at the first range behind the target. -/
theorem jointCheckDebugLoop_isSome {target : Ste} (stes : List Ste) :
  ∀ {i : ℕ}, Ranged stes → target.startLba ≤ target.endLba →
    ((jointCheckDebugLoop target none i stes).isSome = true ↔
      ∃ ste ∈ stes, ¬ ste.Apart target)
  := by
  induction stes with
  | nil =>
      intro i _ _
      simp [jointCheckDebugLoop]
  | cons a stes ih =>
      intro i hr ht
      have ha := hr.1 a List.mem_cons_self
      have hrest : Ranged stes :=
        ⟨fun ste h => hr.1 ste (List.mem_cons_of_mem a h), (List.pairwise_cons.mp hr.2).2⟩
      unfold jointCheckDebugLoop
      rw [if_neg nofun]
      split
      · rename_i hend
        rw [ih hrest ht, List.exists_mem_cons_iff, or_iff_right]
        exact fun h => h (.inl hend)
      · split
        · rename_i hstart
          simp only [if_true, Option.isSome_none, Bool.false_eq_true, false_iff]
          rintro ⟨ste, hste, hmeet⟩
          apply hmeet
          rcases List.mem_cons.mp hste with rfl | hste
          · right
            apply hstart
          · have := (List.pairwise_cons.mp hr.2).1 ste hste
            right
            omega
        · rename_i hend hstart
          simp only [Option.isSome_some, true_iff]
          use a, List.mem_cons_self
          rintro (h | h)
          · apply hend h
          · apply hstart h

theorem steAt_eq_of_getElem? {i : ℕ} {ste : Ste} (h : sa.stes[i]? = some ste) :
  sa.steAt i = ste
  := by rw [steAt, h, Option.getD_some]

/-- The result of `spm_find_target_idx` is the index of the entry that covers the lba. -/
theorem getTargetSte_eq_some (hr : Ranged sa.stes) (lba i : ℕ) :
  sa.getTargetSte lba = some i ↔ ∃ ste, sa.stes[i]? = some ste ∧ ste.Covers lba
  := by
  constructor
  · intro h
    obtain ⟨hlt, hstart, hend⟩ := findTargetLoop_some _ h
    have hi := List.getElem?_eq_getElem hlt
    rw [steAt_eq_of_getElem? hi] at hstart hend
    have hle := hr.1 _ (List.getElem_mem hlt)
    exact ⟨_, hi, hstart, by omega⟩
  · rintro ⟨ste, hi, hc⟩
    apply findTargetLoop_covers hr (fun _ _ => steAt_eq_of_getElem?) hi hc _ (Nat.zero_le i)
    · apply (List.getElem?_eq_some_iff.mp hi).1
    · apply Nat.le_refl _
    · rw [Nat.zero_add, nowSteNum]
      apply Nat.lt_succ_self _

/-- The result of `spm_joint_check` is the index of an entry that meets the target. -/
theorem jointCheck_some (hr : Ranged sa.stes) {target : Ste}
    (ht : target.startLba ≤ target.endLba) {i : ℕ} (h : sa.jointCheck target = some i) :
  ∃ ste, sa.stes[i]? = some ste ∧ ste.Joint target
  := by
  obtain ⟨ste, hi, hmeet⟩ :=
    jointCheckLoop_some hr (fun _ _ => steAt_eq_of_getElem?) ht _ (Nat.le_refl _) h
  exact ⟨ste, hi, (Ste.joint_iff (hr.1 ste (List.mem_of_getElem? hi)) ht).mpr hmeet⟩

/-- `spm_joint_check` finds something exactly when an entry meets the target. -/
theorem jointCheck_isSome (hr : Ranged sa.stes) {target : Ste}
    (ht : target.startLba ≤ target.endLba) :
  (sa.jointCheck target).isSome = true ↔ ∃ ste ∈ sa.stes, ste.Joint target
  := by
  constructor
  · intro h
    obtain ⟨i, hi⟩ := Option.isSome_iff_exists.mp h
    obtain ⟨ste, hste, hjoint⟩ := jointCheck_some hr ht hi
    exact ⟨ste, List.mem_of_getElem? hste, hjoint⟩
  · rintro ⟨ste, hste, hjoint⟩
    by_contra hnone
    rw [Bool.not_eq_true, Option.isSome_eq_false_iff, Option.isNone_iff_eq_none] at hnone
    obtain ⟨i, hlt, rfl⟩ := List.getElem_of_mem hste
    have hapart := jointCheckLoop_none hr (fun _ _ => steAt_eq_of_getElem?) _ (Nat.le_refl _)
      (by rw [Nat.zero_add]; exact Nat.lt_succ_self _) hnone i _ (Nat.zero_le i) hlt
      (List.getElem?_eq_getElem hlt)
    apply (Ste.joint_iff (hr.1 _ hste) ht).mp hjoint hapart

/-- `spm_joint_check_debug` finds something exactly when an entry meets the target. -/
theorem jointCheckDebug_isSome (hr : Ranged sa.stes) {target : Ste}
    (ht : target.startLba ≤ target.endLba) :
  (sa.jointCheckDebug target none).isSome = true ↔ ∃ ste ∈ sa.stes, ste.Joint target
  := by
  rw [jointCheckDebug, jointCheckDebugLoop_isSome sa.stes hr ht]
  constructor
  · rintro ⟨ste, hste, hmeet⟩
    exact ⟨ste, hste, (Ste.joint_iff (hr.1 ste hste) ht).mpr hmeet⟩
  · rintro ⟨ste, hste, hjoint⟩
    use ste, hste, (Ste.joint_iff (hr.1 ste hste) ht).mp hjoint

/-- In a table whose ranges are in order and disjoint, `spm_find_target_idx` returns the one
index whose range has the lba in it, and nothing when there is none; `spm_joint_check` returns
an index whose range meets that of the target when there is one, and nothing otherwise, and
`spm_joint_check_debug` agrees with it on whether there is one. -/
theorem rangeSearch_correct (sa : StArray) (hr : Ranged sa.stes) :
  (∀ lba i, sa.getTargetSte lba = some i ↔ ∃ ste, sa.stes[i]? = some ste ∧ ste.Covers lba) ∧
    (∀ lba, sa.getTargetSte lba = none ↔ ∀ ste ∈ sa.stes, ¬ ste.Covers lba) ∧
    ∀ target : Ste, target.startLba ≤ target.endLba →
      (∀ i, sa.jointCheck target = some i → ∃ ste, sa.stes[i]? = some ste ∧ ste.Joint target) ∧
      ((sa.jointCheck target).isSome = true ↔ ∃ ste ∈ sa.stes, ste.Joint target) ∧
      (sa.jointCheck target).isSome = (sa.jointCheckDebug target none).isSome
  := by
  refine ⟨getTargetSte_eq_some hr, ?_, ?_⟩
  · intro lba
    rw [Option.eq_none_iff_forall_ne_some]
    constructor
    · intro h ste hste hc
      obtain ⟨i, hi⟩ := List.mem_iff_getElem?.mp hste
      apply h i ((getTargetSte_eq_some hr lba i).mpr ⟨ste, hi, hc⟩)
    · intro h i hi
      obtain ⟨ste, hste, hc⟩ := (getTargetSte_eq_some hr lba i).mp hi
      apply h ste (List.mem_of_getElem? hste) hc
  · intro target ht
    use fun i => jointCheck_some hr ht, jointCheck_isSome hr ht
    rw [Bool.eq_iff_iff, jointCheck_isSome hr ht, jointCheckDebug_isSome hr ht]

/-- Three entries with a gap between the first two, and one of a single lba. -/
theorem rangeSearch_correct_threeEntries :
  let entry (s e : ℕ) : Ste := { Ste.empty with startLba := s, endLba := e }
  let sa : StArray := { StArray.init Geometry.default 1536 .guardBf with
    stes := [entry 10 20, entry 30 30, entry 31 40] }
  (sa.getTargetSte 25 = none ∧ sa.getTargetSte 30 = some 1) ∧
    (sa.jointCheck (entry 21 29)).isSome = (sa.jointCheckDebug (entry 21 29) none).isSome
  := by
  intro entry sa
  have hr : Ranged sa.stes := by
    constructor
    · decide
    · decide
  obtain ⟨hfind, hnone, hjoint⟩ := rangeSearch_correct sa hr
  use ⟨(hnone 25).mpr (by decide), (hfind 30 1).mpr ⟨_, rfl, by decide⟩⟩
  apply (hjoint (entry 21 29) (by decide)).2.2

end StArray

end AppL
