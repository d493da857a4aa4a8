import Mathlib.Logic.Function.Basic
import Mathlib.Data.Set.Basic

/-!
# Directories of copies

Holders keep copies of the values of keys, and a directory names one owner for every key.  The
copy of the owner is current; every other copy is outranked by the owner, so that whoever looks
at the ranks can tell that it is old.  This module has the rules by which copies are dropped,
taken over and written.
-/

namespace Directory

variable {ι κ ν ρ : Type}

/-- A copy of the value of a key.  A copy that was old when it was handed on has the rank of the
holder it came from. -/
structure Version (κ ν ρ : Type) where
  key : κ
  value : ν
  orig : Option ρ

/-- The owner of the key ranks above the holder of the copy, or above the rank that came with the
copy. -/
def Outranked (above : ρ → ρ → Prop) (owner : κ → Option ι) (rank : ι → ρ)
    (x : ι × Version κ ν ρ) : Prop :=
  ∃ o, owner x.2.key = some o ∧
    (above (rank o) (rank x.1) ∨ ∃ s, x.2.orig = some s ∧ above (rank o) s)

/-- The copies of the owners are current, and all others are outranked. -/
structure Current (above : ρ → ρ → Prop) (owner : κ → Option ι) (rank : ι → ρ)
    (shelf : Set (ι × Version κ ν ρ)) (val : κ → Option ν) : Prop where
  own : ∀ x ∈ shelf, owner x.2.key = some x.1 → val x.2.key = some x.2.value
  old : ∀ x ∈ shelf, owner x.2.key ≠ some x.1 → Outranked above owner rank x
  held : ∀ k i, owner k = some i → ∃ c, (i, c) ∈ shelf ∧ c.key = k
  none : ∀ k, owner k = none → val k = none

/-- What the holder `t` may get when it takes over the keys `K`: current copies of these keys,
and old copies of others, with the rank of the holder they come from. -/
def Handed (owner : κ → Option ι) (rank : ι → ρ) (shelf : Set (ι × Version κ ν ρ)) (t : ι)
    (K : Set κ) (c : Version κ ν ρ) : Prop :=
  ∃ s d, (s, d) ∈ shelf ∧ d.key = c.key ∧
    ((c.key ∈ K ∧ owner c.key = some s ∧ d.value = c.value) ∨
      c.key ∉ K ∧ owner c.key ≠ some s ∧ owner c.key ≠ some t ∧ d.orig = Option.none ∧
        c.orig = some (rank s))

variable {above : ρ → ρ → Prop} {owner owner' : κ → Option ι} {rank rank' : ι → ρ}
  {shelf shelf' : Set (ι × Version κ ν ρ)} {val : κ → Option ν}

namespace Current

/-- A copy that is not outranked is current. -/
theorem val_of_not_outranked (h : Current above owner rank shelf val) {x : ι × Version κ ν ρ}
    (hx : x ∈ shelf) (hnew : ¬ Outranked above owner rank x) :
  owner x.2.key = some x.1 ∧ val x.2.key = some x.2.value
  := by
  have howner : owner x.2.key = some x.1 := by
    by_contra hne
    apply hnew (h.old x hx hne)
  use howner, h.own x hx howner

/-- The ranks of those that hold copies are all that matters. -/
theorem congr_rank (h : Current above owner rank shelf val)
    (hrank : ∀ x ∈ shelf, rank' x.1 = rank x.1) :
  Current above owner rank' shelf val
  := by
  refine ⟨h.own, ?_, h.held, h.none⟩
  intro x hx hne
  obtain ⟨o, ho, hout⟩ := h.old x hx hne
  obtain ⟨c, hc, -⟩ := h.held _ o ho
  use o, ho
  rw [hrank x hx, hrank (o, c) hc]
  apply hout

/-- Copies are dropped that no owner has. -/
theorem drop (h : Current above owner rank shelf val) (hsub : shelf' ⊆ shelf)
    (hkeep : ∀ x ∈ shelf, owner x.2.key = some x.1 → x ∈ shelf') :
  Current above owner rank shelf' val
  := by
  refine ⟨fun x hx => h.own x (hsub hx), fun x hx => h.old x (hsub hx), ?_, h.none⟩
  intro k i hi
  obtain ⟨c, hc, rfl⟩ := h.held k i hi
  exact ⟨c, hkeep (i, c) hc hi, rfl⟩

/-- The holder `t` takes over the keys `K`.  It ranks above the others that have copies of
them. -/
theorem take {t : ι} {K : Set κ} (h : Current above owner rank shelf val)
    (hin : ∀ k ∈ K, owner' k = some t) (hout : ∀ k, k ∉ K → owner' k = owner k)
    (hshelf : ∀ x ∈ shelf', (x ∈ shelf ∧ (x.2.key ∈ K → x.1 ≠ t ∧ above (rank t) (rank x.1))) ∨
      x.1 = t ∧ Handed owner rank shelf t K x.2)
    (hheld : ∀ k ∈ K, ∃ c, (t, c) ∈ shelf' ∧ c.key = k)
    (hkeep : ∀ x ∈ shelf, x.2.key ∉ K → owner x.2.key = some x.1 → x ∈ shelf') :
  Current above owner' rank shelf' val
  := by
  refine ⟨?_, ?_, ?_, ?_⟩
  · intro x hx howner
    by_cases hk : x.2.key ∈ K
    · rw [hin _ hk] at howner
      rcases hshelf x hx with ⟨-, habove⟩ | ⟨-, s, d, hd, hkey, ⟨-, hs, hval⟩ | ⟨hnk, -⟩⟩
      · exact absurd (Option.some.inj howner).symm (habove hk).1
      · rw [← hkey, ← hval]
        exact h.own (s, d) hd (hkey ▸ hs)
      · exact absurd hk hnk
    · rw [hout _ hk] at howner
      rcases hshelf x hx with ⟨hx, -⟩ | ⟨ht, s, d, -, -, ⟨hk', -⟩ | ⟨-, -, hnot, -⟩⟩
      · apply h.own x hx howner
      · exact absurd hk' hk
      · exact absurd (ht ▸ howner) hnot
  · intro x hx hne
    by_cases hk : x.2.key ∈ K
    · rw [hin _ hk] at hne
      refine ⟨t, hin _ hk, .inl ?_⟩
      rcases hshelf x hx with ⟨-, habove⟩ | ⟨ht, -⟩
      · apply (habove hk).2
      · exact absurd (congrArg some ht.symm) hne
    · rw [hout _ hk] at hne
      rcases hshelf x hx with ⟨hx, -⟩ | ⟨-, s, d, hd, hkey, ⟨hk', -⟩ | ⟨-, hs, -, hnone, horig⟩⟩
      · obtain ⟨o, ho, hrank⟩ := h.old x hx hne
        use o, (hout _ hk).trans ho, hrank
      · exact absurd hk' hk
      · obtain ⟨o, ho, hrank⟩ := h.old (s, d) hd (fun heq => hs (hkey ▸ heq))
        rcases hrank with hrank | ⟨r, hr, -⟩
        · refine ⟨o, (hout _ hk).trans (hkey ▸ ho), .inr ⟨rank s, horig, hrank⟩⟩
        · rw [hnone] at hr
          cases hr
  · intro k i hi
    by_cases hk : k ∈ K
    · rw [hin k hk] at hi
      cases hi
      apply hheld k hk
    · rw [hout k hk] at hi
      obtain ⟨c, hc, rfl⟩ := h.held k i hi
      exact ⟨c, hkeep (i, c) hc hk hi, rfl⟩
  · intro k hnone
    by_cases hk : k ∈ K
    · rw [hin k hk] at hnone
      cases hnone
    · exact h.none k (hout k hk ▸ hnone)

/-- A new value of a key is written to the holder `t`, which ranks above the others that have
copies of the key. -/
theorem write [DecidableEq κ] {t : ι} {k : κ} {v : ν} (h : Current above owner rank shelf val)
    (hshelf : ∀ x, x ∈ shelf' ↔ x = (t, ⟨k, v, Option.none⟩) ∨ x ∈ shelf ∧ ¬ (x.1 = t ∧ x.2.key = k))
    (habove : ∀ x ∈ shelf, x.2.key = k → x.1 ≠ t → above (rank t) (rank x.1)) :
  Current above (Function.update owner k (some t)) rank shelf' (Function.update val k (some v))
  := by
  refine ⟨?_, ?_, ?_, ?_⟩
  · intro x hx howner
    rcases (hshelf x).mp hx with rfl | ⟨hx, hnot⟩
    · apply Function.update_self k _ val
    · by_cases hk : x.2.key = k
      · rw [hk, Function.update_self] at howner
        exact absurd ⟨(Option.some.inj howner).symm, hk⟩ hnot
      · rw [Function.update_of_ne hk] at howner ⊢
        apply h.own x hx howner
  · intro x hx hne
    rcases (hshelf x).mp hx with rfl | ⟨hx, hnot⟩
    · exact absurd (Function.update_self k _ owner) hne
    · by_cases hk : x.2.key = k
      · refine ⟨t, ?_, .inl (habove x hx hk fun ht => hnot ⟨ht, hk⟩)⟩
        rw [hk, Function.update_self]
      · rw [Function.update_of_ne hk] at hne
        obtain ⟨o, ho, hrank⟩ := h.old x hx hne
        use o, (Function.update_of_ne hk _ _).trans ho, hrank
  · intro j i hi
    by_cases hj : j = k
    · rw [hj, Function.update_self] at hi
      cases hi
      exact ⟨_, (hshelf _).mpr (.inl rfl), hj.symm⟩
    · rw [Function.update_of_ne hj] at hi
      obtain ⟨c, hc, rfl⟩ := h.held j i hi
      exact ⟨c, (hshelf _).mpr (.inr ⟨hc, fun hx => hj hx.2⟩), rfl⟩
  · intro j hnone
    by_cases hj : j = k
    · rw [hj, Function.update_self] at hnone
      cases hnone
    · rw [Function.update_of_ne hj] at hnone ⊢
      apply h.none j hnone

end Current

end Directory
