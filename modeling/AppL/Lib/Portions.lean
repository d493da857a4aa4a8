import Mathlib.Algebra.BigOperators.Ring.List
import Mathlib.Algebra.Order.BigOperators.Group.List
import Mathlib.Algebra.Order.Ring.Nat
import Mathlib.Data.Finset.Card

/-!
# Portions

A store is emptied element by element, and its elements are divided into portions.  A portion that
is whole counts with its size, and one that elements are missing of with the number of those that
are left.  The weight of all portions falls with every element that is taken, and by the size of a
portion when the portion is taken as a whole; and as long as no portion is broken it is a multiple
of every number that divides the sizes.
-/

open scoped Classical in
/-- A portion: its elements, and its size, which is at least their number. -/
structure Portion (α : Type) where
  size : ℕ
  body : Finset α
  card_le : body.card ≤ size

namespace Portion

open scoped Classical

variable {α : Type} {left left' : Set α} {b : Portion α} {bs : List (Portion α)} {x : α}

/-- What a portion counts, when the elements `left` are left. -/
noncomputable def weight (left : Set α) (b : Portion α) : ℕ :=
  if (b.body : Set α) ⊆ left then b.size else (b.body.filter (· ∈ left)).card

theorem weight_whole (h : (b.body : Set α) ⊆ left) :
  b.weight left = b.size
  := if_pos h

theorem weight_gone (h : ∀ x ∈ b.body, x ∉ left) (hne : b.body.Nonempty) :
  b.weight left = 0
  := by
  obtain ⟨x, hx⟩ := hne
  rw [weight, if_neg fun hsub => h x hx (hsub hx), Finset.card_eq_zero,
    Finset.filter_eq_empty_iff]
  intro y hy
  apply h y hy

theorem weight_mono (h : left' ⊆ left) :
  b.weight left' ≤ b.weight left
  := by
  unfold weight
  split
  · rename_i hsub
    rw [if_pos (hsub.trans h)]
  · split
    · apply (Finset.card_filter_le _ _).trans b.card_le
    · apply Finset.card_le_card
      apply Finset.monotone_filter_right
      intro x _ hx
      apply h hx

theorem weight_lt (h : left' ⊆ left) (hb : x ∈ b.body) (hx : x ∈ left) (hx' : x ∉ left') :
  b.weight left' < b.weight left
  := by
  have hlt : ∀ s : Finset α, b.body.filter (· ∈ left') ⊆ s → x ∈ s →
      (b.body.filter (· ∈ left')).card < s.card := by
    intro s hs hmem
    apply Finset.card_lt_card
    refine ⟨hs, fun hsub => hx' ?_⟩
    apply (Finset.mem_filter.mp (hsub hmem)).2
  rw [weight, if_neg fun hsub => hx' (hsub hb)]
  unfold weight
  split
  · apply lt_of_lt_of_le _ b.card_le
    apply hlt _ (Finset.filter_subset _ _) hb
  · apply hlt _ _ (Finset.mem_filter.mpr ⟨hb, hx⟩)
    apply Finset.monotone_filter_right
    intro y _ hy
    apply h hy

/-- What all portions count together. -/
noncomputable def total (left : Set α) (bs : List (Portion α)) : ℕ := (bs.map (weight left)).sum

theorem total_cons :
  total left (b :: bs) = b.weight left + total left bs
  := by
  rw [total, List.map_cons, List.sum_cons, total]

theorem total_mono (h : left' ⊆ left) :
  total left' bs ≤ total left bs
  := by
  apply List.sum_le_sum
  intro b _
  apply weight_mono h

/-- The portions are whole at the beginning. -/
theorem total_whole (h : ∀ b ∈ bs, (b.body : Set α) ⊆ left) :
  total left bs = (bs.map (·.size)).sum
  := by
  rw [total, List.map_congr_left]
  intro b hb
  apply weight_whole (h b hb)

/-- A change of the weight of one portion. -/
theorem total_change {n : ℕ} (hb : b ∈ bs) (h : left' ⊆ left)
    (hn : b.weight left' + n ≤ b.weight left) :
  total left' bs + n ≤ total left bs
  := by
  induction bs with
  | nil => cases hb
  | cons c bs ih =>
      rw [total_cons, total_cons]
      rcases List.mem_cons.mp hb with rfl | hb
      · have := @total_mono α left left' bs h
        omega
      · have := ih hb
        have := @weight_mono α left left' c h
        omega

/-- An element is taken. -/
theorem total_lt (h : left' ⊆ left) (hb : b ∈ bs) (hmem : x ∈ b.body) (hx : x ∈ left)
    (hx' : x ∉ left') :
  total left' bs < total left bs
  := total_change (n := 1) hb h (weight_lt h hmem hx hx')

/-- As long as something is left, the weight is not zero. -/
theorem total_pos (hb : b ∈ bs) (hmem : x ∈ b.body) (hx : x ∈ left) :
  0 < total left bs
  := lt_of_le_of_lt (Nat.zero_le _) (total_lt (Set.empty_subset left) hb hmem hx id)

/-- A portion is taken as a whole. -/
theorem total_take (h : left' ⊆ left) (hb : b ∈ bs) (hwhole : (b.body : Set α) ⊆ left)
    (hgone : ∀ x ∈ b.body, x ∉ left') (hne : b.body.Nonempty) :
  total left' bs + b.size ≤ total left bs
  := by
  apply total_change hb h
  rw [weight_gone hgone hne, weight_whole hwhole, Nat.zero_add]

/-- When every portion is whole or gone, the weight is a multiple of what divides the sizes. -/
theorem dvd_total {n : ℕ} (hn : ∀ b ∈ bs, n ∣ b.size)
    (h : ∀ b ∈ bs, (b.body : Set α) ⊆ left ∨ ∀ x ∈ b.body, x ∉ left) :
  n ∣ total left bs
  := by
  unfold total
  apply List.dvd_sum
  intro w hw
  obtain ⟨b, hb, rfl⟩ := List.mem_map.mp hw
  by_cases hsub : (b.body : Set α) ⊆ left
  · rw [weight_whole hsub]
    apply hn b hb
  · have hne : b.body.Nonempty := by
      rw [Finset.nonempty_iff_ne_empty]
      rintro hnil
      apply hsub
      rw [hnil, Finset.coe_empty]
      apply Set.empty_subset
    rw [weight_gone ((h b hb).resolve_left hsub) hne]
    apply dvd_zero

end Portion
