import Mathlib.Algebra.Order.Ring.Int
import Mathlib.Data.Finset.Lattice.Basic
import Mathlib.Data.Multiset.AddSub
import Mathlib.Logic.Equiv.Basic
import Mathlib.Order.Interval.Finset.Nat

/-!
# Binary heaps

A binary heap lies in the places `1` to `n`, and the children of the place `i` are `2 * i` and
`2 * i + 1`.  Sifting down exchanges an element with its larger child until no child is larger.
The rules are about a set of places that have to be in order, with one place excepted where
the element that is sifted lies.
-/

namespace BinaryHeap

variable {κ : Type} [LinearOrder κ]

/-- The place `c` is a child of the place `i`. -/
def IsChild (c i : ℕ) : Prop := c = 2 * i ∨ c = 2 * i + 1

theorem isChild_iff {c i : ℕ} :
  IsChild c i ↔ c / 2 = i
  := by
  unfold IsChild
  omega

theorem IsChild.unique {c i j : ℕ} (hi : IsChild c i) (hj : IsChild c j) :
  i = j
  := (isChild_iff.mp hi).symm.trans (isChild_iff.mp hj)

theorem IsChild.lt {c i : ℕ} (h : IsChild c i) (hi : 0 < i) :
  i < c
  := by
  unfold IsChild at h
  omega

/-- No child of the place has a larger key. -/
def Good (key : ℕ → κ) (n i : ℕ) : Prop := ∀ c, IsChild c i → c ≤ n → key c ≤ key i

/-- All places of a set are in order, but for the place of the element that is sifted.  Its
children are not above its parent. -/
structure Sifting (s : Set ℕ) (key : ℕ → κ) (n hole : ℕ) : Prop where
  closed : ∀ i ∈ s, ∀ c, IsChild c i → c ≤ n → c ∈ s
  good : ∀ i ∈ s, i ≠ hole → Good key n i
  grand : ∀ i ∈ s, IsChild hole i → ∀ c, IsChild c hole → c ≤ n → key c ≤ key i

namespace Sifting

variable {s : Set ℕ} {key : ℕ → κ} {n hole c : ℕ}

/-- The element goes to the place of its largest child, which is larger than it. -/
theorem move (h : Sifting s key n hole) (hpos : 0 < hole) (hc : IsChild c hole) (hcn : c ≤ n)
    (hlt : key hole < key c) (hmax : ∀ d, IsChild d hole → d ≤ n → key d ≤ key c) :
  Sifting s (key ∘ Equiv.swap hole c) n c
  where
    closed := h.closed
    good i hi hic d hd hdn := by
      have hne : hole ≠ c := (hc.lt hpos).ne
      rcases eq_or_ne i hole with rfl | hih
      · rw [Function.comp_apply, Function.comp_apply, Equiv.swap_apply_left]
        rcases eq_or_ne d c with rfl | hdc
        · rw [Equiv.swap_apply_right]
          apply hlt.le
        · rw [Equiv.swap_apply_of_ne_of_ne (hd.lt hpos).ne' hdc]
          apply hmax d hd hdn
      · have hdc : d ≠ c := by
          rintro rfl
          apply hih (hd.unique hc)
        rw [Function.comp_apply, Function.comp_apply, Equiv.swap_apply_of_ne_of_ne hih hic]
        rcases eq_or_ne d hole with rfl | hdh
        · rw [Equiv.swap_apply_left]
          apply h.grand i hi hd c hc hcn
        · rw [Equiv.swap_apply_of_ne_of_ne hdh hdc]
          apply h.good i hi hih d hd hdn
    grand i hi hci d hd hdn := by
      obtain rfl := hci.unique hc
      have hcpos : 0 < c := hpos.trans (hc.lt hpos)
      rw [Function.comp_apply, Function.comp_apply, Equiv.swap_apply_left,
        Equiv.swap_apply_of_ne_of_ne ((hc.lt hpos).trans (hd.lt hcpos)).ne' (hd.lt hcpos).ne']
      apply h.good c (h.closed i hi c hc hcn) (hc.lt hpos).ne' d hd hdn

/-- An element without a larger child is in order. -/
theorem finish (h : Sifting s key n hole) (hgood : Good key n hole) :
  ∀ i ∈ s, Good key n i
  := by
  intro i hi
  rcases eq_or_ne i hole with rfl | hne
  · apply hgood
  · apply h.good i hi hne

end Sifting

/-- A place is added to a set of places that are in order, when its children are in the set and
its parent is not. -/
theorem sifting_insert {s : Set ℕ} {key : ℕ → κ} {n j : ℕ} (hj : 0 < j)
    (hclosed : ∀ i ∈ s, ∀ c, IsChild c i → c ≤ n → c ∈ s) (hgood : ∀ i ∈ s, Good key n i)
    (hchild : ∀ c, IsChild c j → c ≤ n → c ∈ s) (hparent : j / 2 ∉ s) :
  Sifting (insert j s) key n j
  where
    closed i hi c hc hcn := by
      rcases hi with rfl | hi
      · apply Or.inr (hchild c hc hcn)
      · apply Or.inr (hclosed i hi c hc hcn)
    good i hi hij := hgood i (hi.resolve_left hij)
    grand i hi hji := by
      have hlt := hji.lt (i := i)
      have hdiv := isChild_iff.mp hji
      rcases hi with rfl | hi
      · omega
      · exact absurd (hdiv ▸ hi) hparent

/-- When all places are in order, the first one has the largest key. -/
theorem le_root {key : ℕ → κ} {n : ℕ} (h : ∀ i, 0 < i → Good key n i) :
  ∀ i, 0 < i → i ≤ n → key i ≤ key 1
  := by
  intro i
  induction i using Nat.strongRecOn with
  | ind i ih =>
      intro hi hin
      rcases Nat.lt_or_ge 1 i with hlt | hle
      · have hparent : 0 < i / 2 := by omega
        have hup : key i ≤ key (i / 2) := h (i / 2) hparent i (isChild_iff.mpr rfl) hin
        apply hup.trans (ih (i / 2) (by omega) hparent (by omega))
      · obtain rfl : i = 1 := by omega
        apply le_refl _

/-! ### The elements -/

variable {β : Type}

/-- The elements in the places `1` to `n`. -/
def elements (f : ℕ → β) (n : ℕ) : Multiset β := (Finset.Icc 1 n).val.map f

theorem mem_elements {f : ℕ → β} {n : ℕ} {x : β} :
  x ∈ elements f n ↔ ∃ i, 0 < i ∧ i ≤ n ∧ f i = x
  := by
  simp only [elements, Multiset.mem_map, Finset.mem_val, Finset.mem_Icc]
  constructor
  · rintro ⟨i, ⟨hpos, hle⟩, rfl⟩
    exact ⟨i, hpos, hle, rfl⟩
  · rintro ⟨i, hpos, hle, rfl⟩
    exact ⟨i, ⟨hpos, hle⟩, rfl⟩

theorem elements_succ (f : ℕ → β) (n : ℕ) :
  elements f (n + 1) = f (n + 1) ::ₘ elements f n
  := by
  have hnot : n + 1 ∉ Finset.Icc 1 n := by simp
  have hIcc : Finset.Icc 1 (n + 1) = insert (n + 1) (Finset.Icc 1 n) := by
    ext i
    simp only [Finset.mem_Icc, Finset.mem_insert]
    omega
  rw [elements, elements, hIcc, Finset.insert_val_of_notMem hnot, Multiset.map_cons]

theorem elements_congr {f f' : ℕ → β} {n : ℕ} (h : ∀ i, 0 < i → i ≤ n → f i = f' i) :
  elements f n = elements f' n
  := by
  apply Multiset.map_congr rfl
  intro i hi
  rw [Finset.mem_val, Finset.mem_Icc] at hi
  apply h i hi.1 hi.2

/-- Exchanging two elements. -/
theorem elements_swap (f : ℕ → β) {n i j : ℕ} (hi : i ∈ Finset.Icc 1 n)
    (hj : j ∈ Finset.Icc 1 n) :
  elements (f ∘ Equiv.swap i j) n = elements f n
  := by
  have hmap : (Finset.Icc 1 n).map (Equiv.swap i j).toEmbedding = Finset.Icc 1 n := by
    apply Finset.map_perm
    intro k hk
    by_contra hnot
    apply hk
    apply Equiv.swap_apply_of_ne_of_ne
    · rintro rfl
      apply hnot hi
    · rintro rfl
      apply hnot hj
  rw [elements, elements, ← Multiset.map_map]
  congr 1
  have hval := congrArg Finset.val hmap
  rwa [Finset.map_val] at hval

/-- Taking the first element away, and putting the last one in its place. -/
theorem elements_pop (f : ℕ → β) (n : ℕ) :
  elements f (n + 1) = f 1 ::ₘ elements (f ∘ Equiv.swap 1 (n + 1)) n
  := by
  rw [← elements_swap f (i := 1) (j := n + 1) (by simp) (by simp), elements_succ,
    Function.comp_apply, Equiv.swap_apply_right]

end BinaryHeap
