import Mathlib.Data.Nat.Find
import Mathlib.Order.Basic

/-!
# Maximal runs

Some natural numbers are populated, and some neighbours among them are linked.  The maximal
runs of linked numbers partition the populated numbers.  When one number changes, the runs that
it does not touch stay, and the others are cut at it or joined with it.
-/

namespace MaximalRuns

/-- The numbers that are populated, and those that are linked to their successor. -/
structure Line where
  pop : ℕ → Prop
  link : ℕ → Prop
  left : ∀ i, link i → pop i
  right : ∀ i, link i → pop (i + 1)

namespace Line

variable {l l' : Line} {a b c d i o : ℕ}

/-- A maximal run of linked numbers. -/
structure MaxRun (l : Line) (a b : ℕ) : Prop where
  le : a ≤ b
  pop : ∀ i, a ≤ i → i ≤ b → l.pop i
  link : ∀ i, a ≤ i → i < b → l.link i
  first : ∀ i, i + 1 = a → ¬ l.link i
  last : ¬ l.link b

/-- A run that has a number of a maximal run does not begin before it. -/
theorem MaxRun.first_le (h : l.MaxRun a b) (h' : l.MaxRun c d) (ha : a ≤ i) (hd : i ≤ d) :
  a ≤ c
  := by
  by_contra hlt
  apply h.first (a - 1) (by omega) (h'.link (a - 1) (by omega) (by omega))

/-- A run that has a number of a maximal run does not end behind it. -/
theorem MaxRun.last_le (h : l.MaxRun a b) (h' : l.MaxRun c d) (hb : i ≤ b) (hc : c ≤ i) :
  d ≤ b
  := by
  by_contra hlt
  apply h.last (h'.link b (by omega) (by omega))

/-- Maximal runs with a common number are equal. -/
theorem MaxRun.unique (h : l.MaxRun a b) (h' : l.MaxRun c d) (hi : a ≤ i ∧ i ≤ b)
    (hi' : c ≤ i ∧ i ≤ d) :
  a = c ∧ b = d
  := by
  constructor
  · apply Nat.le_antisymm (h.first_le h' hi.1 hi'.2) (h'.first_le h hi'.1 hi.2)
  · apply Nat.le_antisymm (h'.last_le h hi'.2 hi.1) (h.last_le h' hi.2 hi'.1)

/-- Every populated number is in a maximal run. -/
theorem exists_maxRun {n : ℕ} (hn : ∀ i, l.pop i → i < n) (hi : l.pop i) :
  ∃ a b, l.MaxRun a b ∧ a ≤ i ∧ i ≤ b
  := by
  classical
  have hstart : ∃ a, a ≤ i ∧ ∀ j, a ≤ j → j < i → l.link j :=
    ⟨i, le_rfl, fun j hj hj' => absurd hj (by omega)⟩
  obtain ⟨ha, hlinked⟩ := Nat.find_spec hstart
  have hmin := fun {m} (hm : m < Nat.find hstart) => Nat.find_min hstart hm
  generalize Nat.find hstart = a at ha hlinked hmin
  have hend : ∃ b, i ≤ b ∧ ¬ l.link b := by
    refine ⟨max i n, le_max_left _ _, ?_⟩
    intro h
    have := hn _ (l.left _ h)
    omega
  obtain ⟨hb, hlast⟩ := Nat.find_spec hend
  have hminb := fun {m} (hm : m < Nat.find hend) => Nat.find_min hend hm
  generalize Nat.find hend = b at hb hlast hminb
  have hlink : ∀ j, a ≤ j → j < b → l.link j := by
    intro j hj hj'
    rcases Nat.lt_or_ge j i with hlt | hge
    · apply hlinked j hj hlt
    · by_contra hnot
      apply hminb hj' ⟨hge, hnot⟩
  refine ⟨a, b, ⟨by omega, ?_, hlink, ?_, hlast⟩, ha, hb⟩
  · intro j hj hj'
    rcases Nat.lt_or_ge j b with hlt | hge
    · apply l.left j (hlink j hj hlt)
    · rcases Nat.lt_or_ge a j with hlt | hge'
      · have := l.right (j - 1) (hlink (j - 1) (by omega) (by omega))
        rwa [Nat.sub_add_cancel (by omega)] at this
      · obtain rfl : j = i := by omega
        apply hi
  · intro j hj hlinkj
    refine hmin (m := j) (by omega) ⟨by omega, ?_⟩
    intro k hk hk'
    rcases Nat.eq_or_lt_of_le hk with rfl | hlt
    · apply hlinkj
    · apply hlinked k (by omega) hk'

/-- Runs that are maximal, and that have every populated number, are all maximal runs. -/
theorem mem_iff_of_covers {rs : List (ℕ × ℕ)} (hruns : ∀ r ∈ rs, l.MaxRun r.1 r.2)
    (hcovers : ∀ i, l.pop i → ∃ r ∈ rs, r.1 ≤ i ∧ i ≤ r.2) (r : ℕ × ℕ) :
  r ∈ rs ↔ l.MaxRun r.1 r.2
  := by
  constructor
  · apply hruns r
  · intro hr
    obtain ⟨r', hr', hi⟩ := hcovers r.1 (hr.pop r.1 le_rfl hr.le)
    obtain ⟨h₁, h₂⟩ := (hruns r' hr').unique hr hi ⟨le_rfl, hr.le⟩
    rw [← Prod.ext h₁ h₂]
    apply hr'

/-- The number `o` alone. -/
theorem maxRun_single (ho : l'.pop o) (hleft : ∀ i, i + 1 = o → ¬ l'.link i)
    (hright : ¬ l'.link o) :
  l'.MaxRun o o
  where
    le := le_rfl
    pop i hi hi' := by
      obtain rfl : i = o := by omega
      apply ho
    link i hi hi' := by omega
    first := hleft
    last := hright

/-! ### A change of one number -/

/-- Two lines differ at `o` and in its links only. -/
structure Differs (o : ℕ) (l l' : Line) : Prop where
  pop : ∀ i, i ≠ o → (l'.pop i ↔ l.pop i)
  link : ∀ i, i ≠ o → i + 1 ≠ o → (l'.link i ↔ l.link i)

variable (hdiff : Differs o l l')

include hdiff

/-- A run that `o` is not in stays, unless it is joined with `o`. -/
theorem MaxRun.away (h : l.MaxRun a b) (ho : o < a ∨ b < o) (hleft : b + 1 = o → ¬ l'.link b)
    (hright : o + 1 = a → ¬ l'.link o) :
  l'.MaxRun a b
  where
    le := h.le
    pop i hi hi' := (hdiff.pop i (by omega)).mpr (h.pop i hi hi')
    link i hi hi' := (hdiff.link i (by omega) (by omega)).mpr (h.link i hi hi')
    first i hi := by
      by_cases hio : i = o
      · subst hio
        apply hright hi
      · have := h.le
        rw [hdiff.link i hio (by omega)]
        apply h.first i hi
    last := by
      by_cases hbo : b + 1 = o
      · apply hleft hbo
      · have := h.le
        rw [hdiff.link b (by omega) hbo]
        apply h.last

/-- The part of a run before `o`. -/
theorem MaxRun.before (h : l.MaxRun a b) (ha : a < o) (hb : o ≤ b) (hleft : ¬ l'.link (o - 1)) :
  l'.MaxRun a (o - 1)
  where
    le := by omega
    pop i hi hi' := (hdiff.pop i (by omega)).mpr (h.pop i hi (by omega))
    link i hi hi' := (hdiff.link i (by omega) (by omega)).mpr (h.link i hi (by omega))
    first i hi := by
      rw [hdiff.link i (by omega) (by omega)]
      apply h.first i hi
    last := hleft

/-- The part of a run behind `o`. -/
theorem MaxRun.behind (h : l.MaxRun a b) (ha : a ≤ o) (hb : o < b) (hright : ¬ l'.link o) :
  l'.MaxRun (o + 1) b
  where
    le := hb
    pop i hi hi' := (hdiff.pop i (by omega)).mpr (h.pop i (by omega) hi')
    link i hi hi' := (hdiff.link i (by omega) (by omega)).mpr (h.link i (by omega) hi')
    first i hi := by
      obtain rfl : i = o := by omega
      apply hright
    last := by
      rw [hdiff.link b (by omega) (by omega)]
      apply h.last

/-- The run before `o` is joined with it. -/
theorem MaxRun.joinLeft (h : l.MaxRun a b) (hb : b + 1 = o) (hleft : l'.link b)
    (hright : ¬ l'.link o) :
  l'.MaxRun a o
  where
    le := by have := h.le; omega
    pop i hi hi' := by
      rcases Nat.lt_or_ge b i with hlt | hge
      · obtain rfl : i = b + 1 := by omega
        apply l'.right b hleft
      · apply (hdiff.pop i (by omega)).mpr (h.pop i hi hge)
    link i hi hi' := by
      rcases Nat.lt_or_ge i b with hlt | hge
      · apply (hdiff.link i (by omega) (by omega)).mpr (h.link i hi hlt)
      · obtain rfl : i = b := by omega
        apply hleft
    first i hi := by
      have := h.le
      rw [hdiff.link i (by omega) (by omega)]
      apply h.first i hi
    last := hright

/-- The run behind `o` is joined with it. -/
theorem MaxRun.joinRight (h : l.MaxRun a b) (ha : o + 1 = a) (hright : l'.link o)
    (hleft : ∀ i, i + 1 = o → ¬ l'.link i) :
  l'.MaxRun o b
  where
    le := by have := h.le; omega
    pop i hi hi' := by
      rcases Nat.lt_or_ge o i with hlt | hge
      · apply (hdiff.pop i (by omega)).mpr (h.pop i (by omega) hi')
      · obtain rfl : i = o := by omega
        apply l'.left i hright
    link i hi hi' := by
      rcases Nat.lt_or_ge o i with hlt | hge
      · apply (hdiff.link i (by omega) (by omega)).mpr (h.link i (by omega) hi')
      · obtain rfl : i = o := by omega
        apply hright
    first := hleft
    last := by
      have := h.le
      rw [hdiff.link b (by omega) (by omega)]
      apply h.last

end Line

end MaximalRuns
