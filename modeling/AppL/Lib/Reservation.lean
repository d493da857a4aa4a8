import Mathlib.Algebra.BigOperators.Group.List.Basic
import Mathlib.Algebra.Order.Ring.Int
import Mathlib.Data.List.Nodup
import Mathlib.Logic.Function.Basic

/-!
# Reservations

A store with a bounded number of places.  A place is used, or it is reserved by one of the
clients; the reserved places are counted in one number.  This module has the rules by which the
count stays the sum of what the clients have reserved, and the places do not run out.
-/

namespace Reservation

variable {κ : Type} {l : List κ} {f f' : κ → ℕ} {k : κ}

/-- The places that the clients of a list have reserved. -/
def total (l : List κ) (f : κ → ℕ) : ℕ := (l.map f).sum

/-- The count is the sum of the reservations, and used and reserved places together are at most
`max`. -/
structure Within (max used : ℕ) (reserved : ℤ) (l : List κ) (f : κ → ℕ) : Prop where
  nodup : l.Nodup
  reserved_eq : reserved = total l f
  le : used + reserved ≤ max

theorem total_congr (h : ∀ k ∈ l, f k = f' k) :
  total l f = total l f'
  := by
  unfold total
  rw [List.map_congr_left h]

variable {max used : ℕ} {reserved : ℤ}

theorem Within.nonneg (h : Within max used reserved l f) :
  0 ≤ reserved
  := by
  rw [h.reserved_eq]
  apply Int.natCast_nonneg

theorem Within.congr (h : Within max used reserved l f) (hf : ∀ k ∈ l, f k = f' k) :
  Within max used reserved l f'
  where
    nodup := h.nodup
    reserved_eq := by
      rw [h.reserved_eq, total_congr hf]
    le := h.le

/-- A place is used, or it is no longer. -/
theorem Within.use (h : Within max used reserved l f) {used' : ℕ}
    (hle : used' + reserved ≤ max) :
  Within max used' reserved l f
  := ⟨h.nodup, h.reserved_eq, hle⟩

variable [DecidableEq κ]

theorem total_erase (hk : k ∈ l) (f : κ → ℕ) :
  total l f = f k + total (l.erase k) f
  := by
  unfold total
  rw [List.sum_map_erase f hk]

theorem total_update (hl : l.Nodup) (hk : k ∈ l) (f : κ → ℕ) (v : ℕ) :
  total l (Function.update f k v) + f k = total l f + v
  := by
  have hrest : total (l.erase k) (Function.update f k v) = total (l.erase k) f := by
    apply total_congr
    intro j hj
    apply Function.update_of_ne
    rintro rfl
    apply hl.not_mem_erase hj
  rw [total_erase hk, total_erase hk f, hrest, Function.update_self]
  omega

/-- A client that is not there comes with its reservation. -/
theorem total_cons_update (hk : k ∉ l) (f : κ → ℕ) (v : ℕ) :
  total (k :: l) (Function.update f k v) = v + total l f
  := by
  have hrest : total l (Function.update f k v) = total l f := by
    apply total_congr
    intro j hj
    apply Function.update_of_ne
    rintro rfl
    apply hk hj
  unfold total at hrest ⊢
  rw [List.map_cons, List.sum_cons, Function.update_self, hrest]

/-- A client reserves places, or returns them. -/
theorem Within.change (h : Within max used reserved l f) (hk : k ∈ l) {v : ℕ} {reserved' : ℤ}
    (hr : reserved' = reserved + v - f k) (hle : used + reserved' ≤ max) :
  Within max used reserved' l (Function.update f k v)
  where
    nodup := h.nodup
    reserved_eq := by
      have htotal := total_update h.nodup hk f v
      rw [hr, h.reserved_eq]
      omega
    le := hle

/-- A client without a reservation comes. -/
theorem Within.enter (h : Within max used reserved l f) (hk : k ∉ l) :
  Within max used reserved (k :: l) (Function.update f k 0)
  where
    nodup := List.nodup_cons.mpr ⟨hk, h.nodup⟩
    reserved_eq := by
      rw [total_cons_update hk, Nat.zero_add]
      apply h.reserved_eq
    le := h.le

/-- A client without a reservation goes. -/
theorem Within.leave (h : Within max used reserved l f) (hk : f k = 0) :
  Within max used reserved (l.erase k) f
  where
    nodup := h.nodup.erase k
    reserved_eq := by
      rw [h.reserved_eq]
      by_cases hmem : k ∈ l
      · rw [total_erase hmem, hk, Nat.zero_add]
      · rw [List.erase_of_not_mem hmem]
    le := h.le

end Reservation
