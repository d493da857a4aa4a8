import Mathlib.Order.Lattice
import Mathlib.Data.List.Basic

/-!
# The first greatest element

A loop goes over a list and remembers the first element with the greatest key.  Some elements
have no key.
-/

namespace ArgMax

universe u v

variable {ι : Type u} {α : Type v} [LinearOrder α]

/-- One turn of the loop. -/
def step (key : ι → Option α) (best : ι × α) (i : ι) : ι × α :=
  match key i with
  | some t => if best.2 < t then (i, t) else best
  | none => best

/-- An element of the list has the greatest key, and those before it have smaller ones. -/
structure IsFirst (key : ι → Option α) (l : List ι) (i : ι) (t : α) : Prop where
  key_eq : key i = some t
  split : ∃ l₁ l₂, l = l₁ ++ i :: l₂ ∧ (∀ j ∈ l₁, ∀ t', key j = some t' → t' < t)
    ∧ ∀ j ∈ l₂, ∀ t', key j = some t' → t' ≤ t

variable {key : ι → Option α}

theorem step_none {best : ι × α} {i : ι} (h : key i = none) :
  step key best i = best
  := by
  unfold step
  rw [h]

theorem step_some {best : ι × α} {i : ι} {t : α} (h : key i = some t) :
  step key best i = if best.2 < t then (i, t) else best
  := by
  unfold step
  rw [h]

/-- An element with a smaller key, or with none, is put before the list. -/
theorem IsFirst.cons {l : List ι} {i j : ι} {t : α} (h : IsFirst key l i t)
    (hj : ∀ t', key j = some t' → t' < t) :
  IsFirst key (j :: l) i t
  := by
  obtain ⟨l₁, l₂, hl, hbefore, hafter⟩ := h.split
  refine ⟨h.key_eq, j :: l₁, l₂, congrArg (j :: ·) hl, ?_, hafter⟩
  intro k hk
  obtain rfl | hk := List.mem_cons.mp hk
  · apply hj
  · apply hbefore k hk

/-- The result of the loop is where it started, and no key is greater, or it is the first
element with the greatest key. -/
theorem foldl_step (l : List ι) (d : ι) (a : α) :
  (l.foldl (step key) (d, a) = (d, a) ∧ ∀ j ∈ l, ∀ t, key j = some t → t ≤ a)
    ∨ (a < (l.foldl (step key) (d, a)).2
      ∧ IsFirst key l (l.foldl (step key) (d, a)).1 (l.foldl (step key) (d, a)).2)
  := by
  induction l generalizing d a with
  | nil => exact .inl ⟨rfl, by simp⟩
  | cons i l ih =>
      rw [List.foldl_cons]
      cases hkey : key i with
      | none =>
          rw [step_none hkey]
          rcases ih d a with ⟨heq, hle⟩ | ⟨hlt, hfirst⟩
          · refine .inl ⟨heq, ?_⟩
            intro j hj t ht
            obtain rfl | hj := List.mem_cons.mp hj
            · rw [hkey] at ht
              cases ht
            · apply hle j hj t ht
          · refine .inr ⟨hlt, hfirst.cons ?_⟩
            intro t ht
            rw [hkey] at ht
            cases ht
      | some t =>
          rw [step_some hkey]
          dsimp only
          by_cases hat : a < t
          · rw [if_pos hat]
            rcases ih i t with ⟨heq, hle⟩ | ⟨hlt, hfirst⟩
            · rw [heq]
              right
              exact ⟨hat, hkey, [], l, rfl, by simp, hle⟩
            · refine .inr ⟨hat.trans hlt, hfirst.cons ?_⟩
              intro t' ht'
              rw [hkey] at ht'
              cases ht'
              apply hlt
          · rw [if_neg hat]
            rcases ih d a with ⟨heq, hle⟩ | ⟨hlt, hfirst⟩
            · refine .inl ⟨heq, ?_⟩
              intro j hj t' ht'
              obtain rfl | hj := List.mem_cons.mp hj
              · rw [hkey] at ht'
                cases ht'
                apply not_lt.mp hat
              · apply hle j hj t' ht'
            · refine .inr ⟨hlt, hfirst.cons ?_⟩
              intro t' ht'
              rw [hkey] at ht'
              cases ht'
              apply (not_lt.mp hat).trans_lt hlt

/-- The element is in the list. -/
theorem IsFirst.mem {l : List ι} {i : ι} {t : α} (h : IsFirst key l i t) :
  i ∈ l
  := by
  obtain ⟨l₁, l₂, rfl, -⟩ := h.split
  simp

/-- There is only one such element. -/
theorem IsFirst.unique {l : List ι} {i j : ι} {t u : α} (hi : IsFirst key l i t)
    (hj : IsFirst key l j u) :
  i = j
  := by
  obtain ⟨l₁, l₂, rfl, hi₁, hi₂⟩ := hi.split
  obtain ⟨m₁, m₂, heq, hj₁, hj₂⟩ := hj.split
  rcases List.append_eq_append_iff.mp heq with ⟨k, hk, hk'⟩ | ⟨k, hk, hk'⟩
  · cases k with
    | nil =>
        rw [List.nil_append] at hk'
        apply (List.cons.inj hk').1
    | cons x k =>
        obtain ⟨rfl, rfl⟩ := List.cons.inj hk'
        have hlt := hj₁ i (by rw [hk]; simp) t hi.key_eq
        have hle := hi₂ j (by simp) u hj.key_eq
        exact absurd hlt hle.not_gt
  · cases k with
    | nil =>
        rw [List.nil_append] at hk'
        apply (List.cons.inj hk').1.symm
    | cons x k =>
        obtain ⟨rfl, rfl⟩ := List.cons.inj hk'
        have hlt := hi₁ j (by rw [hk]; simp) u hj.key_eq
        have hle := hj₂ i (by simp) t hi.key_eq
        exact absurd hlt hle.not_gt

end ArgMax
