import Mathlib.Data.List.Chain
import Mathlib.Data.List.Range

/-!
# Run-length compression

A function on natural numbers is compressed to the numbers at which its value changes, the
heads, and the list of its values there.  The value at a number is found by counting the heads
up to it.
-/

namespace RunLength

universe u

variable {α : Type u} [DecidableEq α] (v w : ℕ → α)

/-- A run of equal values begins at `i`. -/
def isHead (i : ℕ) : Bool := i = 0 ∨ v i ≠ v (i - 1)

/-- The values at the heads among the `n` numbers from `a` on. -/
def part (a n : ℕ) : List α := ((List.range' a n).filter (isHead v)).map v

theorem isHead_zero :
  isHead v 0 = true
  := decide_eq_true (.inl rfl)

theorem isHead_succ (i : ℕ) :
  isHead v (i + 1) = true ↔ v (i + 1) ≠ v i
  := by
  unfold isHead
  simp

@[simp]
theorem part_zero (a : ℕ) :
  part v a 0 = []
  := rfl

theorem part_append (a m n : ℕ) :
  part v a m ++ part v (a + m) n = part v a (m + n)
  := by
  unfold part
  rw [← List.map_append, ← List.filter_append]
  congr 2
  simp

theorem part_one (a : ℕ) :
  part v a 1 = if isHead v a then [v a] else []
  := by
  unfold part
  rw [List.range'_one, List.filter_singleton]
  cases isHead v a with
  | true => rfl
  | false => rfl

theorem part_succ (a n : ℕ) :
  part v a (n + 1) = part v a n ++ if isHead v (a + n) then [v (a + n)] else []
  := by
  rw [← part_append, part_one]

theorem length_part (a n : ℕ) :
  (part v a n).length = (List.range' a n).countP (isHead v)
  := by
  unfold part
  rw [List.length_map, List.countP_eq_length_filter]

variable {v w}

/-- The heads from `a` on depend on the values from `a - 1` on. -/
theorem part_congr {a n : ℕ} (h : ∀ i, a ≤ i + 1 → i < a + n → v i = w i) :
  part v a n = part w a n
  := by
  induction n with
  | zero => rfl
  | succ n ih =>
      have hhead : isHead v (a + n) = isHead w (a + n) := by
        unfold isHead
        rw [h (a + n) (by omega) (by omega), h (a + n - 1) (by omega) (by omega)]
      rw [part_succ, part_succ, ih fun i hi hlt => h i hi (by omega), hhead,
        h (a + n) (by omega) (by omega)]

variable (v)

/-- The last value up to `n` is the value at `n`. -/
theorem getLast?_part (n : ℕ) :
  (part v 0 (n + 1)).getLast? = some (v n)
  := by
  induction n with
  | zero => rfl
  | succ n ih =>
      rw [part_succ, Nat.zero_add]
      cases hhead : isHead v (n + 1) with
      | true =>
          rw [if_pos rfl]
          apply List.getLast?_concat
      | false =>
          rw [if_neg Bool.false_ne_true, List.append_nil, ih]
          congr 1
          by_contra hne
          rw [(isHead_succ v n).mpr (Ne.symm hne)] at hhead
          cases hhead

/-- The value at `n` is the last one among the values up to `n`. -/
theorem getElem?_part (n m : ℕ) :
  (part v 0 (n + 1 + m))[(part v 0 (n + 1)).length - 1]? = some (v n)
  := by
  have hlast := getLast?_part v n
  rw [List.getLast?_eq_getElem?] at hlast
  rw [← part_append, List.getElem?_append_left (List.getElem?_eq_some_iff.mp hlast).1]
  apply hlast

/-- Neighbouring values are different. -/
theorem isChain_part (n : ℕ) :
  (part v 0 n).IsChain (· ≠ ·)
  := by
  induction n with
  | zero => exact .nil
  | succ n ih =>
      rw [part_succ, Nat.zero_add]
      cases hhead : isHead v n with
      | false =>
          rw [if_neg Bool.false_ne_true, List.append_nil]
          apply ih
      | true =>
          rw [if_pos rfl]
          refine List.isChain_append.mpr ⟨ih, .singleton _, ?_⟩
          intro x hx y hy
          obtain rfl : v n = y := Option.some.inj hy
          cases n with
          | zero => cases hx
          | succ n =>
              rw [getLast?_part] at hx
              obtain rfl : v n = x := Option.some.inj hx
              apply Ne.symm ((isHead_succ v n).mp hhead)

/-- A function without changes. -/
theorem part_const (c : α) (n : ℕ) :
  part (fun _ => c) 0 (n + 1) = [c]
  := by
  induction n with
  | zero => rfl
  | succ n ih =>
      rw [part_succ, ih, if_neg]
      · rfl
      · rw [Nat.zero_add, isHead_succ]
        exact fun h => h rfl

end RunLength
