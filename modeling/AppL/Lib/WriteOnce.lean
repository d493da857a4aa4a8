import Mathlib.Data.Set.Basic
import Mathlib.Data.Set.Disjoint

/-!
# Memories that are written once

A part of a memory is blank, that is, may still be written.  Writing takes cells from the blank
part, which never gets any back, so a cell outside of it has its contents for good.
-/

namespace WriteOnce

variable {α β : Type} {blank blank' blank'' others : Set α} {m m' m'' : α → β} {q : α}

/-- The memory `m'` with the blank part `blank'` comes from `m` with `blank` by writing blank
cells. -/
structure FillsIn (blank blank' : Set α) (m m' : α → β) : Prop where
  sub : blank' ⊆ blank
  same : ∀ q, q ∉ blank → m' q = m q

theorem FillsIn.refl :
  FillsIn blank blank m m
  := ⟨Set.Subset.refl _, fun _ _ => rfl⟩

theorem FillsIn.trans (h : FillsIn blank blank' m m') (h' : FillsIn blank' blank'' m' m'') :
  FillsIn blank blank'' m m''
  where
    sub := h'.sub.trans h.sub
    same q hq := (h'.same q fun hq' => hq (h.sub hq')).trans (h.same q hq)

/-- Cells are taken from the blank part without being written. -/
theorem FillsIn.of_sub (hsub : blank' ⊆ blank) (hm : m' = m) :
  FillsIn blank blank' m m'
  := ⟨hsub, fun _ _ => congrFun hm _⟩

/-- What others may write does not matter. -/
theorem FillsIn.union (h : FillsIn blank blank' m m') (others : Set α) :
  FillsIn (others ∪ blank) (others ∪ blank') m m'
  where
    sub := Set.union_subset_union_right others h.sub
    same q hq := h.same q fun hq' => hq (.inr hq')

/-- The cell has been written, and has `v`. -/
def Inscribed (blank : Set α) (m : α → β) (q : α) (v : β) : Prop := q ∉ blank ∧ m q = v

/-- A cell that has been written keeps its contents. -/
theorem Inscribed.fills {v : β} (h : Inscribed blank m q v) (hfills : FillsIn blank blank' m m') :
  Inscribed blank' m' q v
  := ⟨fun hq => h.1 (hfills.sub hq), (hfills.same q h.1).trans h.2⟩

end WriteOnce
