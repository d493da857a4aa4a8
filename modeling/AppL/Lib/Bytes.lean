import Mathlib.Algebra.Order.Ring.Int
import Mathlib.Data.List.Basic

/-!
# Numbers in bytes

Numbers are kept in a list of bytes, the least byte first.  This module has the bytes of a
number, the reads and the writes of a number at a position, and what a read gives after a write
to the same bytes or to others.
-/

namespace Bytes

/-- The `w` bytes of a number. -/
def toBytes : ℕ → ℕ → List ℕ
  | 0, _ => []
  | w + 1, v => v % 256 :: toBytes w (v / 256)

/-- The number of some bytes. -/
def ofBytes : List ℕ → ℕ
  | [] => 0
  | b :: bs => b + 256 * ofBytes bs

/-- The number in the `w` bytes at a position. -/
def read (data : List ℕ) (pos w : ℕ) : Option ℕ :=
  if pos + w ≤ data.length then some (ofBytes ((data.drop pos).take w)) else none

/-- The `w` bytes of a number are written at a position. -/
def write (data : List ℕ) (pos w v : ℕ) : Option (List ℕ) :=
  if pos + w ≤ data.length then
    some (data.take pos ++ toBytes w v ++ data.drop (pos + w))
  else
    none

@[simp]
theorem length_toBytes (w : ℕ) :
  ∀ v, (toBytes w v).length = w
  := by
  induction w with
  | zero =>
      intro v
      rfl
  | succ w ih =>
      intro v
      rw [toBytes, List.length_cons, ih]

/-- The bytes of a number give the number back, up to the range of the bytes. -/
theorem ofBytes_toBytes (w : ℕ) :
  ∀ v, ofBytes (toBytes w v) = v % 256 ^ w
  := by
  induction w with
  | zero =>
      intro v
      rw [toBytes, ofBytes, Nat.pow_zero, Nat.mod_one]
  | succ w ih =>
      intro v
      rw [toBytes, ofBytes, ih, Nat.pow_succ', Nat.mod_mul]

section Access

variable {data data' : List ℕ} {pos pos' w w' v : ℕ}

theorem write_eq_some (h : pos + w ≤ data.length) (v : ℕ) :
  write data pos w v = some (data.take pos ++ toBytes w v ++ data.drop (pos + w))
  := if_pos h

theorem exists_write (h : pos + w ≤ data.length) (v : ℕ) :
  ∃ data', write data pos w v = some data'
  := ⟨_, write_eq_some h v⟩

theorem write_bound (h : write data pos w v = some data') :
  pos + w ≤ data.length
  := by
  unfold write at h
  split at h
  · assumption
  · cases h

theorem length_write (h : write data pos w v = some data') :
  data'.length = data.length
  := by
  have hle := write_bound h
  rw [write_eq_some hle] at h
  cases h
  rw [List.length_append, List.length_append, List.length_take, List.length_drop,
    length_toBytes]
  omega

/-- What is read from the bytes that have been written. -/
theorem read_write (h : write data pos w v = some data') :
  read data' pos w = some (v % 256 ^ w)
  := by
  have hle := write_bound h
  have hlen := length_write h
  rw [write_eq_some hle] at h
  cases h
  have htake : (data.take pos).length = pos := by
    rw [List.length_take]
    omega
  have hmid : (toBytes w v ++ data.drop (pos + w)).take w = toBytes w v := by
    rw [List.take_left' (length_toBytes w v)]
  rw [read, hlen, if_pos hle, List.append_assoc, List.drop_left' htake, hmid, ofBytes_toBytes]

/-- A write to other bytes does not change what is read. -/
theorem read_write_of_disjoint (h : write data pos w v = some data')
    (hdisjoint : pos' + w' ≤ pos ∨ pos + w ≤ pos') :
  read data' pos' w' = read data pos' w'
  := by
  have hle := write_bound h
  have hlen := length_write h
  have hbytes : (data'.drop pos').take w' = (data.drop pos').take w' := by
    rw [write_eq_some hle] at h
    cases h
    apply List.ext_getElem?
    intro i
    rw [List.getElem?_take, List.getElem?_take, List.getElem?_drop, List.getElem?_drop]
    split
    · rcases hdisjoint with hbefore | hafter
      · rw [List.append_assoc, List.getElem?_append_left (by rw [List.length_take]; omega),
          List.getElem?_take_of_lt (by omega)]
      · have hmid : (data.take pos ++ toBytes w v).length = pos + w := by
          rw [List.length_append, List.length_take, length_toBytes]
          omega
        rw [List.getElem?_append_right (by omega), hmid, List.getElem?_drop]
        congr 1
        omega
    · rfl
  unfold read
  rw [hlen, hbytes]

end Access

end Bytes
