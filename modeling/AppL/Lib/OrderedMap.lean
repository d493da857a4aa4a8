import Mathlib.Data.List.Sort
import Mathlib.Order.Basic

/-!
# Ordered maps

A map with keys in a linear order is the list of its entries in the order of the keys.  An
insertion leaves an entry alone that is there already, and the neighbours of a key are the last
entry before it and the first one behind it.
-/

namespace OrderedMap

variable {κ ν : Type*} [LinearOrder κ]

/-- The entries are in the order of their keys. -/
def Sorted (m : List (κ × ν)) : Prop := m.Pairwise fun x y => x.1 < y.1

/-- An entry is inserted, unless its key is there. -/
def insert (k : κ) (v : ν) : List (κ × ν) → List (κ × ν)
  | [] => [(k, v)]
  | x :: m => if k < x.1 then (k, v) :: x :: m else if x.1 < k then x :: insert k v m else x :: m

/-- The entry of a key is erased. -/
def erase (k : κ) (m : List (κ × ν)) : List (κ × ν) := m.filter fun x => x.1 ≠ k

/-- The value of a key that is there is set. -/
def set (k : κ) (v : ν) (m : List (κ × ν)) : List (κ × ν) :=
  m.map fun x => if x.1 = k then (k, v) else x

/-- The last entry with a property. -/
def last (p : κ → Bool) (m : List (κ × ν)) : Option (κ × ν) := (m.filter fun x => p x.1).getLast?

/-- The first entry behind a key. -/
def above (k : κ) (m : List (κ × ν)) : Option (κ × ν) := m.find? fun x => k < x.1

variable {m m' : List (κ × ν)} {k : κ} {v : ν} {x y : κ × ν}

/-! ### Entries -/

/-- There is one entry of a key. -/
theorem Sorted.eq_of_key (h : Sorted m) (hx : x ∈ m) (hy : y ∈ m) (hkey : x.1 = y.1) :
  x = y
  := by
  by_contra hne
  apply List.Pairwise.forall_of_forall_of_flip (R := fun x y : κ × ν => x ≠ y → x.1 ≠ y.1)
    (fun x _ hxx => absurd rfl hxx) (h.imp fun hlt _ => hlt.ne) (h.imp fun hlt _ => hlt.ne')
    hx hy hne hkey

/-- A map is determined by its entries. -/
theorem Sorted.ext (h : Sorted m) (h' : Sorted m') (hmem : ∀ x, x ∈ m ↔ x ∈ m') :
  m = m'
  := by
  have hnodup : ∀ {l : List (κ × ν)}, Sorted l → l.Nodup :=
    fun hl => hl.imp fun hlt heq => hlt.ne (congrArg Prod.fst heq)
  refine List.Perm.eq_of_pairwise ?_ h h' ((List.perm_ext_iff_of_nodup (hnodup h) (hnodup h')).mpr hmem)
  intro x y _ _ hxy hyx
  exact absurd hyx hxy.asymm

/-! ### Insertions -/

theorem mem_insert (h : Sorted m) :
  x ∈ insert k v m ↔ x ∈ m ∨ x = (k, v) ∧ ∀ y ∈ m, y.1 ≠ k
  := by
  induction m with
  | nil => simp [insert]
  | cons z m ih =>
      obtain ⟨hz, hm⟩ := List.pairwise_cons.mp h
      unfold insert
      rcases lt_trichotomy k z.1 with hlt | heq | hgt
      · have hnone : ∀ y ∈ z :: m, y.1 ≠ k := by
          intro y hy
          obtain rfl | hy := List.mem_cons.mp hy
          · apply hlt.ne'
          · apply (hlt.trans (hz y hy)).ne'
        rw [if_pos hlt, List.mem_cons]
        constructor
        · rintro (hx | hx)
          · right
            use hx, hnone
          · left
            apply hx
        · rintro (hx | ⟨hx, -⟩)
          · right
            apply hx
          · left
            apply hx
      · rw [if_neg heq.not_lt, if_neg heq.not_gt]
        constructor
        · exact .inl
        · rintro (hx | ⟨-, hnone⟩)
          · apply hx
          · exact absurd heq.symm (hnone z List.mem_cons_self)
      · rw [if_neg hgt.not_gt, if_pos hgt, List.mem_cons, ih hm, List.mem_cons]
        constructor
        · rintro (hx | hx | ⟨hx, hnone⟩)
          · left
            left
            apply hx
          · left
            right
            apply hx
          · refine .inr ⟨hx, ?_⟩
            intro y hy
            obtain rfl | hy := List.mem_cons.mp hy
            · apply hgt.ne
            · apply hnone y hy
        · rintro ((hx | hx) | ⟨hx, hnone⟩)
          · left
            apply hx
          · right
            left
            apply hx
          · right
            right
            exact ⟨hx, fun y hy => hnone y (List.mem_cons_of_mem z hy)⟩

theorem Sorted.insert (h : Sorted m) (k : κ) (v : ν) :
  Sorted (insert k v m)
  := by
  induction m with
  | nil => apply List.pairwise_singleton _ _
  | cons z m ih =>
      obtain ⟨hz, hm⟩ := List.pairwise_cons.mp h
      unfold OrderedMap.insert
      rcases lt_trichotomy k z.1 with hlt | heq | hgt
      · rw [if_pos hlt]
        refine List.pairwise_cons.mpr ⟨?_, h⟩
        intro y hy
        obtain rfl | hy := List.mem_cons.mp hy
        · apply hlt
        · apply hlt.trans (hz y hy)
      · rw [if_neg heq.not_lt, if_neg heq.not_gt]
        apply h
      · rw [if_neg hgt.not_gt, if_pos hgt]
        refine List.pairwise_cons.mpr ⟨?_, ih hm⟩
        intro y hy
        obtain hy | ⟨rfl, -⟩ := (mem_insert hm).mp hy
        · apply hz y hy
        · apply hgt

theorem length_insert_le (k : κ) (v : ν) (m : List (κ × ν)) :
  (insert k v m).length ≤ m.length + 1
  := by
  induction m with
  | nil => rfl
  | cons z m ih =>
      unfold insert
      split
      · rfl
      · split
        · apply Nat.succ_le_succ ih
        · apply Nat.le_succ _

/-! ### Other changes -/

theorem mem_erase :
  x ∈ erase k m ↔ x ∈ m ∧ x.1 ≠ k
  := by
  unfold erase
  rw [List.mem_filter, decide_eq_true_eq]

theorem Sorted.erase (h : Sorted m) (k : κ) :
  Sorted (erase k m)
  := List.Pairwise.filter _ h

theorem length_erase_le (k : κ) (m : List (κ × ν)) :
  (erase k m).length ≤ m.length
  := List.length_filter_le _ m

theorem mem_set :
  x ∈ set k v m ↔ x ∈ m ∧ x.1 ≠ k ∨ x = (k, v) ∧ ∃ y ∈ m, y.1 = k
  := by
  unfold set
  rw [List.mem_map]
  constructor
  · rintro ⟨y, hy, rfl⟩
    split
    · right
      exact ⟨rfl, y, hy, by assumption⟩
    · left
      use hy, by assumption
  · rintro (⟨hx, hne⟩ | ⟨rfl, y, hy, hkey⟩)
    · use x, hx, if_neg hne
    · use y, hy, if_pos hkey

theorem Sorted.set (h : Sorted m) (k : κ) (v : ν) :
  Sorted (set k v m)
  := by
  have hkey : ∀ x : κ × ν, (if x.1 = k then (k, v) else x).1 = x.1 := by
    intro x
    split
    · symm
      assumption
    · rfl
  unfold OrderedMap.set Sorted
  rw [List.pairwise_map]
  apply h.imp fun hlt => by rw [hkey, hkey]; exact hlt

@[simp]
theorem length_set (k : κ) (v : ν) (m : List (κ × ν)) :
  (set k v m).length = m.length
  := List.length_map _

/-! ### Neighbours -/

theorem last_eq_some {p : κ → Bool} (h : Sorted m) (hlast : last p m = some x) :
  x ∈ m ∧ p x.1 = true ∧ ∀ y ∈ m, p y.1 = true → y.1 ≤ x.1
  := by
  obtain ⟨init, hinit⟩ := List.getLast?_eq_some_iff.mp hlast
  have hmem : ∀ y, y ∈ m ∧ p y.1 = true ↔ y ∈ init ++ [x] := by
    intro y
    rw [← hinit, List.mem_filter]
  obtain ⟨hx, hpx⟩ := (hmem x).mpr (List.mem_append_right _ (List.mem_singleton_self x))
  have hsorted : Sorted (init ++ [x]) := by
    rw [← hinit]
    apply List.Pairwise.filter _ h
  obtain ⟨-, -, hlt⟩ := List.pairwise_append.mp hsorted
  use hx, hpx
  intro y hy hpy
  obtain hy | hy := List.mem_append.mp ((hmem y).mp ⟨hy, hpy⟩)
  · apply (hlt y hy x (List.mem_singleton_self x)).le
  · rw [List.mem_singleton.mp hy]

omit [LinearOrder κ] in
theorem last_eq_none {p : κ → Bool} :
  last p m = none ↔ ∀ y ∈ m, p y.1 = false
  := by
  unfold last
  rw [List.getLast?_eq_none_iff, List.filter_eq_nil_iff]
  simp only [Bool.not_eq_true]

theorem above_eq_some (h : Sorted m) (habove : above k m = some x) :
  x ∈ m ∧ k < x.1 ∧ ∀ y ∈ m, k < y.1 → x.1 ≤ y.1
  := by
  obtain ⟨hx, init, rest, rfl, hinit⟩ := List.find?_eq_some_iff_append.mp habove
  rw [decide_eq_true_eq] at hx
  obtain ⟨-, hrest, -⟩ := List.pairwise_append.mp h
  use List.mem_append_right _ List.mem_cons_self, hx
  intro y hy hlt
  obtain hy | hy := List.mem_append.mp hy
  · have := hinit y hy
    simp only [Bool.not_eq_true', decide_eq_false_iff_not] at this
    exact absurd hlt this
  · obtain rfl | hy := List.mem_cons.mp hy
    · apply le_rfl
    · exact ((List.pairwise_cons.mp hrest).1 y hy).le

theorem above_eq_none :
  above k m = none ↔ ∀ y ∈ m, y.1 ≤ k
  := by
  unfold above
  rw [List.find?_eq_none]
  simp only [decide_eq_true_eq, not_lt]

end OrderedMap
