import Mathlib.Algebra.BigOperators.Group.List.Basic
import Mathlib.Algebra.Order.Ring.Int
import Mathlib.Data.List.Nodup
import Mathlib.Data.List.Perm.Basic
import Mathlib.Logic.Function.Basic

/-!
# Ledgers

A ledger is a list of keys with sizes, kept beside a table of entries.  Every entry says
whether it is to be listed, whether it thinks that it is listed, and its size; the books
balance when the list has exactly the entries that are to be listed, once and with their
sizes, and a counter has the sum of the sizes.
-/

namespace Ledger

/-- What a ledger knows of an entry: whether it is to be listed, whether it has a node in the
list, and its size. -/
structure View where
  listed : Bool
  node : Bool
  size : ℕ
  deriving DecidableEq

variable {κ : Type}

/-- An entry that is not there, or that is not listed and does not think so. -/
def Unlisted (o : Option View) : Prop := ∀ w ∈ o, w.listed = false ∧ w.node = false

/-- The list has the entries that are to be listed, and the counter their sizes. -/
structure Balanced (v : κ → Option View) (l : List (κ × ℕ)) (now : ℤ) : Prop where
  size : now = ((l.map Prod.snd).sum : ℕ)
  nodup : (l.map Prod.fst).Nodup
  listed : ∀ x ∈ l, v x.1 = some ⟨true, true, x.2⟩
  unlisted : ∀ k, k ∉ l.map Prod.fst → Unlisted (v k)

variable {v : κ → Option View} {l l' : List (κ × ℕ)} {now : ℤ} {k : κ} {o : Option View}
  {size : ℕ}

/-- An empty list, for entries none of which is to be listed. -/
theorem Balanced.nil (h : ∀ k, Unlisted (v k)) :
  Balanced v [] 0
  where
    size := rfl
    nodup := List.nodup_nil
    listed x hx := by cases hx
    unlisted k _ := h k

theorem Balanced.perm (h : Balanced v l now) (hl : l.Perm l') :
  Balanced v l' now
  where
    size := by
      rw [h.size, (hl.map Prod.snd).sum_eq]
    nodup := (hl.map Prod.fst).nodup_iff.mp h.nodup
    listed x hx := h.listed x (hl.mem_iff.mpr hx)
    unlisted k hk := h.unlisted k fun hm => hk ((hl.map Prod.fst).mem_iff.mp hm)

/-- An entry is in the list exactly when it is to be listed, and exactly when it thinks so. -/
theorem Balanced.mem_iff (h : Balanced v l now) {w : View} (hw : v k = some w) :
  (k ∈ l.map Prod.fst ↔ w.listed = true) ∧ (w.node = true ↔ w.listed = true)
  := by
  by_cases hk : k ∈ l.map Prod.fst
  · obtain ⟨x, hx, rfl⟩ := List.mem_map.mp hk
    rw [h.listed x hx] at hw
    cases hw
    simp [hk]
  · obtain ⟨h₁, h₂⟩ := h.unlisted k hk w hw
    simp [hk, h₁, h₂]

theorem Balanced.notMem (h : Balanced v l now) (ho : Unlisted (v k)) :
  k ∉ l.map Prod.fst
  := by
  intro hk
  obtain ⟨x, hx, rfl⟩ := List.mem_map.mp hk
  have := (ho _ (h.listed x hx)).1
  cases this

variable [DecidableEq κ]

/-- An entry that is not listed is listed. -/
theorem Balanced.push (h : Balanced v l now) (ho : Unlisted (v k)) :
  Balanced (Function.update v k (some ⟨true, true, size⟩)) ((k, size) :: l) (now + size)
  := by
  have hk := h.notMem ho
  constructor
  · rw [h.size]
    simp [Int.add_comm]
  · rw [List.map_cons, List.nodup_cons]
    use hk, h.nodup
  · intro x hx
    rcases List.mem_cons.mp hx with rfl | hx
    · simp
    · rw [Function.update_of_ne, h.listed x hx]
      intro hxk
      exact hk (hxk ▸ List.mem_map_of_mem hx)
  · intro j hj
    rw [List.map_cons, List.mem_cons, not_or] at hj
    rw [Function.update_of_ne hj.1]
    apply h.unlisted j hj.2

/-- A listed entry is taken from the list. -/
theorem Balanced.remove (h : Balanced v l now) (hl : l.Perm ((k, size) :: l'))
    (ho : Unlisted o) :
  Balanced (Function.update v k o) l' (now - size)
  := by
  have h' := h.perm hl
  have hk := h'.nodup
  rw [List.map_cons, List.nodup_cons] at hk
  constructor
  · rw [h'.size]
    simp
  · apply hk.2
  · intro x hx
    rw [Function.update_of_ne]
    · apply h'.listed x (List.mem_cons_of_mem _ hx)
    · intro hxk
      apply hk.1
      change k ∈ _
      rw [← hxk]
      apply List.mem_map_of_mem hx
  · intro j hj
    rw [Function.update_apply]
    split
    · apply ho
    · rename_i hjk
      apply h'.unlisted
      rw [List.map_cons, List.mem_cons, not_or]
      use hjk, hj

/-- An entry that is not listed changes and is not listed then. -/
theorem Balanced.change (h : Balanced v l now) (hk : Unlisted (v k)) (ho : Unlisted o) :
  Balanced (Function.update v k o) l now
  := by
  have hmem := h.notMem hk
  refine ⟨h.size, h.nodup, ?_, ?_⟩
  · intro x hx
    rw [Function.update_of_ne, h.listed x hx]
    rintro rfl
    apply hmem (List.mem_map_of_mem hx)
  · intro j hj
    rw [Function.update_apply]
    split
    · apply ho
    · apply h.unlisted j hj

end Ledger
