import Mathlib.Logic.Function.Basic

/-!
# Write-back caches

A cache holds lines of a store, and a line that was assigned is owed to the store until it is
written back.  The value of a key is the one of its line, and the one of the store when it has
no line.  This module has the rules by which the operations of a cache keep the value of
every key the one last assigned to it.
-/

namespace WriteBack

variable {κ β : Type}

/-- The line of a key: its value, and whether the store is still owed it. -/
structure Line (β : Type) where
  value : β
  owed : Bool

/-- The value of a key, in the cache if it is there and else in the store. -/
def view (c : κ → Option (Line β)) (m : κ → β) (k : κ) : β :=
  match c k with
  | some l => l.value
  | none => m k

/-- Every key has the value last assigned to it, and a line that is not owed has the value of
the store. -/
structure Coherent (c : κ → Option (Line β)) (m last : κ → β) : Prop where
  view_eq : ∀ k, view c m k = last k
  clean : ∀ {k l}, c k = some l → l.owed = false → m k = l.value

variable {c : κ → Option (Line β)} {m last : κ → β} {k : κ} {l : Line β}

theorem Coherent.value_eq (h : Coherent c m last) (hl : c k = some l) :
  l.value = last k
  := by
  have hv := h.view_eq k
  simpa only [view, hl] using hv

/-- A key without a line has its value in the store. -/
theorem Coherent.store_eq (h : Coherent c m last) (hk : c k = none) :
  m k = last k
  := by
  have hv := h.view_eq k
  simpa only [view, hk] using hv

variable [DecidableEq κ]

/-- The cache takes the value of an assignment, and owes it. -/
theorem Coherent.assign (h : Coherent c m last) (v : β) :
  Coherent (Function.update c k (some ⟨v, true⟩)) m (Function.update last k v)
  where
    view_eq j := by
      rcases eq_or_ne j k with rfl | hj
      · simp [view]
      · simpa [view, hj] using h.view_eq j
    clean := by
      intro j l' hl' howed
      rcases eq_or_ne j k with rfl | hj
      · rw [Function.update_self] at hl'
        cases hl'
        cases howed
      · rw [Function.update_of_ne hj] at hl'
        apply h.clean hl' howed

/-- A key without a line gets the line of the store. -/
theorem Coherent.load (h : Coherent c m last) (hk : c k = none) :
  Coherent (Function.update c k (some ⟨m k, false⟩)) m last
  where
    view_eq j := by
      rcases eq_or_ne j k with rfl | hj
      · simpa [view] using h.store_eq hk
      · simpa [view, hj] using h.view_eq j
    clean := by
      intro j l' hl' howed
      rcases eq_or_ne j k with rfl | hj
      · rw [Function.update_self] at hl'
        cases hl'
        rfl
      · rw [Function.update_of_ne hj] at hl'
        apply h.clean hl' howed

/-- A line of the same value that is owed. -/
theorem Coherent.owe (h : Coherent c m last) (hl : c k = some l) :
  Coherent (Function.update c k (some ⟨l.value, true⟩)) m last
  := by
  have hlast : Function.update last k l.value = last := by
    rw [h.value_eq hl]
    apply Function.update_eq_self
  have ha := h.assign (k := k) l.value
  rwa [hlast] at ha

/-- The line of a key is written back. -/
theorem Coherent.writeBack (h : Coherent c m last) (hl : c k = some l) :
  Coherent (Function.update c k (some ⟨l.value, false⟩)) (Function.update m k l.value) last
  where
    view_eq j := by
      rcases eq_or_ne j k with rfl | hj
      · simpa [view] using h.value_eq hl
      · simpa [view, hj] using h.view_eq j
    clean := by
      intro j l' hl' howed
      rcases eq_or_ne j k with rfl | hj
      · rw [Function.update_self] at hl' ⊢
        cases hl'
        rfl
      · rw [Function.update_of_ne hj] at hl' ⊢
        apply h.clean hl' howed

/-- A line that is not owed is dropped. -/
theorem Coherent.drop (h : Coherent c m last) (hl : c k = some l) (howed : l.owed = false) :
  Coherent (Function.update c k none) m last
  where
    view_eq j := by
      rcases eq_or_ne j k with rfl | hj
      · have hm := h.clean hl howed
        have hv := h.value_eq hl
        simpa [view, hm] using hv
      · simpa [view, hj] using h.view_eq j
    clean := by
      intro j l' hl' howed'
      rcases eq_or_ne j k with rfl | hj
      · rw [Function.update_self] at hl'
        cases hl'
      · rw [Function.update_of_ne hj] at hl'
        apply h.clean hl' howed'

end WriteBack
