import Mathlib.Algebra.Order.Field.Basic
import Mathlib.Data.List.Infix
import Mathlib.Tactic.FieldSimp
import Mathlib.Tactic.Linarith
import Mathlib.Tactic.Ring

/-!
# Lines between points

Points with upper bounds and points with lower bounds are given from left to right, and one
looks for the lines that keep all bounds.  Two of them are extreme: every such line lies
between them to the right of the points.  A new bound moves an extreme line to the tangent
from the new point to a convex chain of the bounds on the other side, and the lines that keep
the bounds of the two chains keep all bounds.
-/

namespace Hull

variable {K : Type*} [Field K] [LinearOrder K] [IsStrictOrderedRing K]

/-! ### Affine functions -/

/-- An affine function. -/
@[ext]
structure Affine (K : Type*) where
  slope : K
  const : K

/-- The value of an affine function. -/
def Affine.eval (f : Affine K) (x : K) : K := f.slope * x + f.const

/-- The affine function with a given slope and a given point. -/
def Affine.at (p : K × K) (m : K) : Affine K := ⟨m, p.2 - m * p.1⟩

/-- The slope between two points. -/
def grad (p q : K × K) : K := (q.2 - p.2) / (q.1 - p.1)

/-- The affine function through two points. -/
def through (p q : K × K) : Affine K := .at p (grad p q)

omit [LinearOrder K] [IsStrictOrderedRing K] in
theorem eval_at (p : K × K) (m x : K) :
  (Affine.at p m).eval x = p.2 + m * (x - p.1)
  := by
  unfold Affine.at Affine.eval
  ring

omit [LinearOrder K] [IsStrictOrderedRing K] in
@[simp]
theorem through_left (p q : K × K) :
  (through p q).eval p.1 = p.2
  := by
  rw [through, eval_at]
  ring

omit [LinearOrder K] [IsStrictOrderedRing K] in
theorem through_right {p q : K × K} (h : p.1 ≠ q.1) :
  (through p q).eval q.1 = q.2
  := by
  have hne : q.1 - p.1 ≠ 0 := sub_ne_zero.mpr h.symm
  rw [through, eval_at, grad, div_mul_cancel₀ _ hne]
  ring

variable {f h : Affine K} {u v x : K}

/-- Two affine functions that change their order between `u` and `v` keep it to the left. -/
theorem le_left_of_cross (huv : u < v) (hu : f.eval u ≤ h.eval u) (hv : h.eval v ≤ f.eval v)
    (hx : x ≤ u) :
  f.eval x ≤ h.eval x
  := by
  unfold Affine.eval at *
  have hslope : 0 ≤ f.slope - h.slope := by
    apply nonneg_of_mul_nonneg_left _ (sub_pos.mpr huv)
    linarith
  have hmul := mul_nonneg hslope (sub_nonneg.mpr hx)
  linarith

/-- And to the right. -/
theorem le_right_of_cross (huv : u < v) (hu : f.eval u ≤ h.eval u) (hv : h.eval v ≤ f.eval v)
    (hx : v ≤ x) :
  h.eval x ≤ f.eval x
  := by
  unfold Affine.eval at *
  have hslope : 0 ≤ f.slope - h.slope := by
    apply nonneg_of_mul_nonneg_left _ (sub_pos.mpr huv)
    linarith
  have hmul := mul_nonneg hslope (sub_nonneg.mpr hx)
  linarith

/-- Two affine functions with different slopes have a common point. -/
theorem exists_eval_eq (hlt : f.slope < h.slope) :
  ∃ x, f.eval x = h.eval x
  := by
  have hne : h.slope - f.slope ≠ 0 := (sub_pos.mpr hlt).ne'
  use (f.const - h.const) / (h.slope - f.slope)
  unfold Affine.eval
  field_simp
  ring

/-- An affine function that stays below another one to the right does not have a larger
slope. -/
theorem slope_le_of_right (hle : ∀ x, u ≤ x → f.eval x ≤ h.eval x) :
  f.slope ≤ h.slope
  := by
  by_contra hlt
  have hpos : 0 < f.slope - h.slope := sub_pos.mpr (not_le.mp hlt)
  have hdiv := div_mul_cancel₀ (h.const - f.const) hpos.ne'
  generalize (h.const - f.const) / (f.slope - h.slope) = v at hdiv
  have hx := hle (max u v + 1) ((le_max_left u v).trans (le_add_of_nonneg_right zero_le_one))
  have hmul := mul_le_mul_of_nonneg_right (le_max_right u v) hpos.le
  unfold Affine.eval at hx
  linarith

/-- Two affine functions with the same order at `u` and at `v` have it between. -/
theorem le_between (hu : f.eval u ≤ h.eval u) (hv : f.eval v ≤ h.eval v) (hux : u ≤ x)
    (hxv : x ≤ v) :
  f.eval x ≤ h.eval x
  := by
  unfold Affine.eval at *
  rcases le_total f.slope h.slope with hs | hs
  · have hmul := mul_nonneg (sub_nonneg.mpr hs) (sub_nonneg.mpr hux)
    linarith
  · have hmul := mul_nonneg (sub_nonneg.mpr hs) (sub_nonneg.mpr hxv)
    linarith

/-! ### Convex chains -/

/-- Twice the signed area of a triangle. -/
def cross (p q r : K × K) : K := (q.1 - p.1) * (r.2 - p.2) - (q.2 - p.2) * (r.1 - p.1)

theorem through_le_iff {p q r : K × K} (hpq : p.1 < q.1) :
  (through p q).eval r.1 ≤ r.2 ↔ 0 ≤ cross p q r
  := by
  have hpos : 0 < q.1 - p.1 := sub_pos.mpr hpq
  have heq : r.2 - (through p q).eval r.1 = cross p q r / (q.1 - p.1) := by
    rw [through, eval_at, grad, cross]
    field_simp
    ring
  rw [← sub_nonneg, heq, le_div_iff₀ hpos, zero_mul]

/-- From left to right. -/
def Sorted (l : List (K × K)) : Prop := l.Pairwise fun p q => p.1 < q.1

/-- A chain that turns to the left. -/
def Convex (l : List (K × K)) : Prop := ∀ p q r, [p, q, r] <:+: l → 0 ≤ cross p q r

omit [IsStrictOrderedRing K] in
theorem Convex.of_infix {l l' : List (K × K)} (h : Convex l) (hl : l' <:+: l) :
  Convex l'
  := fun p q r hpqr => h p q r (hpqr.trans hl)

/-- A convex chain lies above the line through its first two points. -/
theorem Convex.above {p q : K × K} {l : List (K × K)} (hs : Sorted (p :: q :: l))
    (hc : Convex (p :: q :: l)) :
  ∀ r ∈ l, (through p q).eval r.1 ≤ r.2
  := by
  induction l generalizing p q with
  | nil => simp
  | cons s l ih =>
      intro r hr
      obtain ⟨hp, hs'⟩ := List.pairwise_cons.mp hs
      have hpq : p.1 < q.1 := hp q List.mem_cons_self
      have hqs : q.1 < s.1 := (List.pairwise_cons.mp hs').1 s List.mem_cons_self
      have hfirst : (through p q).eval s.1 ≤ s.2
        := (through_le_iff hpq).mpr (hc p q s (List.infix_append [] [p, q, s] l))
      obtain rfl | hr := List.mem_cons.mp hr
      · apply hfirst
      · have hsr : s.1 < r.1
          := (List.pairwise_cons.mp (List.pairwise_cons.mp hs').2).1 r hr
        have hnext := ih hs' (hc.of_infix (List.infix_cons (List.infix_refl _))) r hr
        apply le_trans _ hnext
        apply le_right_of_cross hqs _ _ hsr.le
        · rw [through_left, through_right hpq.ne]
        · rw [through_right hqs.ne]
          apply hfirst

/-- The part of a chain from the point on whose slope to `P` is the first that the next one
does not exceed. -/
def tangent (P : K × K) : List (K × K) → List (K × K)
  | q :: r :: l =>
      if (P.2 - q.2) * (P.1 - r.1) < (P.1 - q.1) * (P.2 - r.2) then
        tangent P (r :: l)
      else
        q :: r :: l
  | l => l

omit [IsStrictOrderedRing K] in
theorem tangent_suffix (P : K × K) (l : List (K × K)) :
  tangent P l <:+ l
  := by
  induction l with
  | nil => apply List.suffix_refl _
  | cons q l ih =>
      cases l with
      | nil => apply List.suffix_refl _
      | cons r l =>
          unfold tangent
          split
          · apply ih.trans (List.suffix_cons _ _)
          · apply List.suffix_refl _

/-- On a convex chain the first point that is not exceeded is the one of the tangent from
`P`: no point of the chain is below the line through it and `P`. -/
theorem tangent_below {P : K × K} {l : List (K × K)} (hs : Sorted l) (hc : Convex l)
    (hP : ∀ q ∈ l, q.1 < P.1 ∨ q.1 = P.1 ∧ P.2 ≤ q.2) (hhead : ∀ q ∈ l.head?, q.1 < P.1)
    (hne : l ≠ []) :
  ∃ a t, tangent P l = a :: t ∧ a.1 < P.1 ∧ ∀ q ∈ l, (through a P).eval q.1 ≤ q.2
  := by
  induction l with
  | nil => exact absurd rfl hne
  | cons q l ih =>
      have hq : q.1 < P.1 := hhead q rfl
      cases l with
      | nil =>
          refine ⟨q, [], rfl, hq, ?_⟩
          intro r hr
          rw [List.mem_singleton.mp hr, through_left]
      | cons r l =>
          obtain ⟨hqs, hs'⟩ := List.pairwise_cons.mp hs
          have hqr : q.1 < r.1 := hqs r List.mem_cons_self
          have hqP : 0 < P.1 - q.1 := sub_pos.mpr hq
          have hline : (through q P).eval r.1 ≤ r.2
              ↔ (P.1 - q.1) * (P.2 - r.2) ≤ (P.2 - q.2) * (P.1 - r.1) := by
            rw [through_le_iff hq, cross]
            constructor
            · intro h
              linarith
            · intro h
              linarith
          unfold tangent
          split
          · rename_i hlt
            have hr : r.1 < P.1 := by
              rcases hP r (by simp) with hr | ⟨hr, hr'⟩
              · apply hr
              · rw [hr, sub_self, mul_zero] at hlt
                exact absurd ((mul_pos_iff_of_pos_left hqP).mp hlt) (by linarith)
            obtain ⟨a, t, hat, ha, hbelow⟩ := ih hs'
              (hc.of_infix (List.infix_cons (List.infix_refl _)))
              (fun q' hq' => hP q' (List.mem_cons_of_mem q hq'))
              (by rintro q' hq'; cases hq'; exact hr) (by simp)
            use a, t, hat, ha
            intro q' hq'
            obtain rfl | hq' := List.mem_cons.mp hq'
            · have hr' : r.2 < (through q' P).eval r.1 := by
                rw [← not_le, hline, not_le]
                apply hlt
              have hle : (through a P).eval q'.1 ≤ (through q' P).eval q'.1 := by
                apply le_left_of_cross hr _ _ hqr.le
                · apply le_trans (hbelow r List.mem_cons_self) hr'.le
                · rw [through_right hq.ne, through_right ha.ne]
              rw [through_left] at hle
              apply hle
            · apply hbelow q' hq'
          · rename_i hlt
            have hr' := hline.mpr (not_lt.mp hlt)
            refine ⟨q, r :: l, rfl, hq, ?_⟩
            intro s hs''
            obtain rfl | hs'' := List.mem_cons.mp hs''
            · rw [through_left]
            obtain rfl | hs'' := List.mem_cons.mp hs''
            · apply hr'
            · have hrs : r.1 < s.1 := (List.pairwise_cons.mp hs').1 s hs''
              apply le_trans _ (Convex.above hs hc s hs'')
              apply le_right_of_cross hqr _ _ hrs.le
              · rw [through_left, through_left]
              · rw [through_right hqr.ne]
                apply hr'

/-- The points of a chain, the last one first, that stay when `P` is put behind it: the last
point goes as long as the chain would not turn to the left there. -/
def prune (P : K × K) : List (K × K) → List (K × K)
  | q :: p :: l => if 0 < cross p q P then q :: p :: l else prune P (p :: l)
  | l => l

/-- A point is put behind a chain. -/
def push (P : K × K) (l : List (K × K)) : List (K × K) := (prune P l.reverse).reverse ++ [P]

omit [IsStrictOrderedRing K] in
theorem prune_suffix (P : K × K) (l : List (K × K)) :
  prune P l <:+ l
  := by
  induction l with
  | nil => apply List.suffix_refl _
  | cons q l ih =>
      cases l with
      | nil => apply List.suffix_refl _
      | cons p l =>
          unfold prune
          split
          · apply List.suffix_refl _
          · apply ih.trans (List.suffix_cons _ _)

omit [IsStrictOrderedRing K] in
theorem prune_initial (P : K × K) (l : List (K × K)) :
  (prune P l.reverse).reverse <+: l
  := by
  have h := List.reverse_prefix.mpr (prune_suffix P l.reverse)
  rwa [List.reverse_reverse] at h

omit [IsStrictOrderedRing K] in
theorem prune_turns {P p q : K × K} {l : List (K × K)} (h : [q, p] <+: prune P l) :
  0 < cross p q P
  := by
  induction l with
  | nil => simp [prune] at h
  | cons q' l ih =>
      cases l with
      | nil => simp [prune] at h
      | cons p' l =>
          unfold prune at h
          split at h
          · rename_i hlt
            obtain ⟨hq, h'⟩ := List.cons_prefix_cons.mp h
            obtain ⟨hp, -⟩ := List.cons_prefix_cons.mp h'
            rw [hp, hq]
            apply hlt
          · apply ih h

omit [IsStrictOrderedRing K] in
theorem mem_push {P q : K × K} {l : List (K × K)} (h : q ∈ push P l) :
  q = P ∨ q ∈ l
  := by
  obtain h | h := List.mem_append.mp h
  · right
    apply (prune_initial P l).subset h
  · left
    apply List.mem_singleton.mp h

omit [IsStrictOrderedRing K] in
theorem push_sorted {P : K × K} {l : List (K × K)} (hs : Sorted l) (hP : ∀ q ∈ l, q.1 < P.1) :
  Sorted (push P l)
  := by
  apply List.pairwise_append.mpr
  use hs.sublist (prune_initial P l).sublist, List.pairwise_singleton _ _
  intro q hq r hr
  rw [List.mem_singleton.mp hr]
  apply hP q ((prune_initial P l).subset hq)

omit [IsStrictOrderedRing K] in
theorem push_convex {P : K × K} {l : List (K × K)} (hc : Convex l) :
  Convex (push P l)
  := by
  intro p q r hpqr
  obtain hpqr | hpqr := List.infix_concat_iff.mp hpqr
  · obtain ⟨t, ht⟩ := hpqr
    have hlast : t ++ [p, q] ++ [r] = (prune P l.reverse).reverse ++ [P] := by
      rw [← ht]
      simp
    obtain ⟨ht, hr⟩ := List.append_inj' hlast rfl
    obtain rfl : r = P := by simpa using hr
    apply le_of_lt
    apply prune_turns (l := l.reverse)
    use t.reverse
    rw [← List.reverse_reverse (prune r l.reverse), ← ht]
    simp
  · apply hc p q r (hpqr.trans (prune_initial P l).isInfix)

/-- A line that does not exceed the points of the new chain does not exceed those of the old
one. -/
theorem push_below {P : K × K} {l : List (K × K)} {f : Affine K} (hs : Sorted l)
    (hP : ∀ q ∈ l, q.1 < P.1) (hf : ∀ q ∈ push P l, f.eval q.1 ≤ q.2) :
  (∀ q ∈ l, f.eval q.1 ≤ q.2) ∧ f.eval P.1 ≤ P.2
  := by
  have hfP : f.eval P.1 ≤ P.2 := hf P (by simp [push])
  refine ⟨?_, hfP⟩
  have hprune : ∀ q ∈ prune P l.reverse, f.eval q.1 ≤ q.2 := by
    intro q hq
    apply hf
    simp [push, hq]
  have hs' : l.reverse.Pairwise fun p q => q.1 < p.1 := List.pairwise_reverse.mpr hs
  have hP' : ∀ q ∈ l.reverse, q.1 < P.1 := by
    intro q hq
    apply hP q (List.mem_reverse.mp hq)
  suffices h : ∀ q ∈ l.reverse, f.eval q.1 ≤ q.2 by
    intro q hq
    apply h q (List.mem_reverse.mpr hq)
  clear hf hs hP
  generalize l.reverse = rl at *
  induction rl with
  | nil => simp
  | cons q l ih =>
      cases l with
      | nil => apply hprune
      | cons p l =>
          obtain ⟨hq, hs'⟩ := List.pairwise_cons.mp hs'
          have hpq : p.1 < q.1 := hq p List.mem_cons_self
          have hqP : q.1 < P.1 := hP' q List.mem_cons_self
          unfold prune at hprune
          split at hprune
          · apply hprune
          · rename_i hturn
            have hrest := ih hprune hs' fun r hr => hP' r (List.mem_cons_of_mem q hr)
            intro r hr
            obtain rfl | hr := List.mem_cons.mp hr
            · have hchord : (through p P).eval r.1 ≤ r.2 := by
                rw [through_le_iff (lt_trans hpq hqP)]
                unfold cross at hturn ⊢
                linarith
              apply le_trans _ hchord
              apply le_between _ _ hpq.le hqP.le
              · rw [through_left]
                apply hrest p List.mem_cons_self
              · rw [through_right (lt_trans hpq hqP).ne]
                apply hfP
            · apply hrest r hr

/-! ### Bounds -/

/-- An affine function keeps upper bounds and lower bounds. -/
structure Keeps (ups lows : List (K × K)) (f : Affine K) : Prop where
  le : ∀ q ∈ ups, f.eval q.1 ≤ q.2
  ge : ∀ q ∈ lows, q.2 ≤ f.eval q.1

section Keeps

variable {ups lows : List (K × K)} {f g h : Affine K}

/-- The functions that keep bounds are a convex set. -/
theorem Keeps.combination (hf : Keeps ups lows f) (hh : Keeps ups lows h) {t : K} (h₀ : 0 ≤ t)
    (h₁ : t ≤ 1) (hg : ∀ x, g.eval x = (1 - t) * f.eval x + t * h.eval x) :
  Keeps ups lows g
  := by
  have h₁' : 0 ≤ 1 - t := sub_nonneg.mpr h₁
  constructor
  · intro q hq
    have hf' := mul_le_mul_of_nonneg_left (hf.le q hq) h₁'
    have hh' := mul_le_mul_of_nonneg_left (hh.le q hq) h₀
    rw [hg]
    linarith
  · intro q hq
    have hf' := mul_le_mul_of_nonneg_left (hf.ge q hq) h₁'
    have hh' := mul_le_mul_of_nonneg_left (hh.ge q hq) h₀
    rw [hg]
    linarith

/-- Of two functions that keep bounds, one below and one above `y` at `x`, a combination goes
through the point. -/
theorem Keeps.interpolate (hf : Keeps ups lows f) (hh : Keeps ups lows h) {x y : K}
    (hy : f.eval x < y) (hy' : y ≤ h.eval x) :
  ∃ g, Keeps ups lows g ∧ g.eval x = y
  := by
  have hpos : 0 < h.eval x - f.eval x := by linarith
  have ht : (y - f.eval x) / (h.eval x - f.eval x) * (h.eval x - f.eval x) = y - f.eval x
    := div_mul_cancel₀ _ hpos.ne'
  refine ⟨⟨f.slope + (y - f.eval x) / (h.eval x - f.eval x) * (h.slope - f.slope),
    f.const + (y - f.eval x) / (h.eval x - f.eval x) * (h.const - f.const)⟩, ?_, ?_⟩
  · apply hf.combination hh (t := (y - f.eval x) / (h.eval x - f.eval x))
    · apply div_nonneg
      · linarith
      · apply hpos.le
    · rw [div_le_one hpos]
      linarith
    · intro z
      unfold Affine.eval
      ring
  · generalize (y - f.eval x) / (h.eval x - f.eval x) = t at *
    unfold Affine.eval at *
    linarith

/-- The lines through the common point of two functions, with a slope between theirs. -/
theorem Keeps.pencil (hf : Keeps ups lows f) (hh : Keeps ups lows h) {m x y : K}
    (hm : f.slope < m) (hm' : m < h.slope) (hx : f.eval x = y) (hx' : h.eval x = y) :
  Keeps ups lows (.at (x, y) m)
  := by
  have hpos : 0 < h.slope - f.slope := by linarith
  have ht : (m - f.slope) / (h.slope - f.slope) * (h.slope - f.slope) = m - f.slope
    := div_mul_cancel₀ _ hpos.ne'
  apply hf.combination hh (t := (m - f.slope) / (h.slope - f.slope))
  · apply div_nonneg
    · linarith
    · apply hpos.le
  · rw [div_le_one hpos]
    linarith
  · intro z
    generalize (m - f.slope) / (h.slope - f.slope) = t at *
    have hf' : f.eval z = y + f.slope * (z - x) := by
      rw [← hx]
      unfold Affine.eval
      ring
    have hh' : h.eval z = y + h.slope * (z - x) := by
      rw [← hx']
      unfold Affine.eval
      ring
    have hm'' : m = f.slope + t * (h.slope - f.slope) := by linarith
    rw [eval_at, hf', hh', hm'']
    ring

end Keeps

/-! ### The mirror image -/

/-- The mirror image of a point. -/
def mirror (p : K × K) : K × K := (p.1, -p.2)

/-- The mirror image of an affine function. -/
def flip (f : Affine K) : Affine K := ⟨-f.slope, -f.const⟩

section Mirror

omit [LinearOrder K] [IsStrictOrderedRing K]

@[simp]
theorem mirror_mirror (p : K × K) :
  mirror (mirror p) = p
  := by
  simp [mirror]

@[simp]
theorem map_mirror_mirror (l : List (K × K)) :
  (l.map mirror).map mirror = l
  := by
  simp [Function.comp_def]

@[simp]
theorem flip_flip (f : Affine K) :
  flip (flip f) = f
  := by
  simp [flip]

@[simp]
theorem flip_eval (f : Affine K) (x : K) :
  (flip f).eval x = -f.eval x
  := by
  unfold flip Affine.eval
  ring

theorem flip_through (p q : K × K) :
  flip (through (mirror p) (mirror q)) = through p q
  := by
  ext
  · simp only [flip, through, Affine.at, grad, mirror]
    ring
  · simp only [flip, through, Affine.at, grad, mirror]
    ring

end Mirror

theorem keeps_mirror {ups lows : List (K × K)} {f : Affine K} :
  Keeps (lows.map mirror) (ups.map mirror) f ↔ Keeps ups lows (flip f)
  := by
  constructor
  · intro h
    constructor
    · intro q hq
      have hle := h.ge _ (List.mem_map_of_mem hq)
      rw [flip_eval]
      simp only [mirror] at hle
      linarith
    · intro q hq
      have hge := h.le _ (List.mem_map_of_mem hq)
      rw [flip_eval]
      simp only [mirror] at hge
      linarith
  · intro h
    constructor
    · intro q hq
      obtain ⟨p, hp, rfl⟩ := List.mem_map.mp hq
      have hge := h.ge p hp
      rw [flip_eval] at hge
      simp only [mirror]
      linarith
    · intro q hq
      obtain ⟨p, hp, rfl⟩ := List.mem_map.mp hq
      have hle := h.le p hp
      rw [flip_eval] at hle
      simp only [mirror]
      linarith

/-! ### The extreme functions -/

/-- The functions that keep the bounds `ups` and `lows` up to `X` lie between `lo` and `hi` to
the right of `X`, and the bounds follow from those of the chains `cl` and `cu`. -/
structure Bracket (ups lows cl cu : List (K × K)) (lo hi : Affine K) (X : K) : Prop where
  cl_sub : ∀ q ∈ cl, q ∈ ups
  cu_sub : ∀ q ∈ cu, q ∈ lows
  cl_sorted : Sorted cl
  cu_sorted : Sorted (cu.map mirror)
  cl_convex : Convex cl
  cu_convex : Convex (cu.map mirror)
  ups_le : ∀ q ∈ ups, q.1 ≤ X
  lows_le : ∀ q ∈ lows, q.1 ≤ X
  lo_keeps : Keeps ups lows lo
  hi_keeps : Keeps ups lows hi
  implied : ∀ f, Keeps cl cu f → Keeps ups lows f
  right : ∀ f, Keeps ups lows f → ∀ x, X ≤ x → lo.eval x ≤ f.eval x ∧ f.eval x ≤ hi.eval x

namespace Bracket

variable {ups lows cl cu : List (K × K)} {lo hi : Affine K} {X : K} {P : K × K}

/-- The mirror image. -/
theorem flipped (h : Bracket ups lows cl cu lo hi X) :
  Bracket (lows.map mirror) (ups.map mirror) (cu.map mirror) (cl.map mirror)
    (flip hi) (flip lo) X
  := by
  constructor
  · intro q hq
    obtain ⟨p, hp, rfl⟩ := List.mem_map.mp hq
    apply List.mem_map_of_mem (h.cu_sub p hp)
  · intro q hq
    obtain ⟨p, hp, rfl⟩ := List.mem_map.mp hq
    apply List.mem_map_of_mem (h.cl_sub p hp)
  · apply h.cu_sorted
  · rw [map_mirror_mirror]
    apply h.cl_sorted
  · apply h.cu_convex
  · rw [map_mirror_mirror]
    apply h.cl_convex
  · intro q hq
    obtain ⟨p, hp, rfl⟩ := List.mem_map.mp hq
    apply h.lows_le p hp
  · intro q hq
    obtain ⟨p, hp, rfl⟩ := List.mem_map.mp hq
    apply h.ups_le p hp
  · rw [keeps_mirror, flip_flip]
    apply h.hi_keeps
  · rw [keeps_mirror, flip_flip]
    apply h.lo_keeps
  · intro f hf
    rw [keeps_mirror] at hf ⊢
    apply h.implied _ hf
  · intro f hf x hx
    rw [keeps_mirror] at hf
    obtain ⟨h₁, h₂⟩ := h.right _ hf x hx
    rw [flip_eval] at h₁ h₂ ⊢
    rw [flip_eval]
    use by linarith, by linarith

omit [IsStrictOrderedRing K] in
/-- A new lower bound that `lo` keeps. -/
theorem keep (h : Bracket ups lows cl cu lo hi X) (hX : X ≤ P.1) (hlo : P.2 ≤ lo.eval P.1) :
  Bracket ups (P :: lows) cl cu lo hi P.1
  := by
  have hnew : ∀ f, Keeps ups lows f → Keeps ups (P :: lows) f := by
    intro f hf
    use hf.le
    intro q hq
    obtain rfl | hq := List.mem_cons.mp hq
    · apply le_trans hlo (h.right f hf _ hX).1
    · apply hf.ge q hq
  refine { h with
    cu_sub := fun q hq => List.mem_cons_of_mem P (h.cu_sub q hq)
    ups_le := fun q hq => le_trans (h.ups_le q hq) hX
    lows_le := ?_
    lo_keeps := hnew _ h.lo_keeps
    hi_keeps := hnew _ h.hi_keeps
    implied := fun f hf => hnew f (h.implied f hf)
    right := ?_ }
  · intro q hq
    obtain rfl | hq := List.mem_cons.mp hq
    · apply le_rfl
    · apply le_trans (h.lows_le q hq) hX
  · intro f hf x hx
    apply h.right f ⟨hf.le, fun q hq => hf.ge q (List.mem_cons_of_mem P hq)⟩ x (le_trans hX hx)

/-- A new lower bound above `lo`: the tangent to the chain of the upper bounds is the new
extreme function. -/
theorem raise (h : Bracket ups lows cl cu lo hi X) (hX : X ≤ P.1) (hlo : lo.eval P.1 < P.2)
    (hhi : P.2 ≤ hi.eval P.1) (hcl : ∀ q ∈ cl, q.1 < P.1 ∨ q.1 = P.1 ∧ P.2 ≤ q.2)
    (hhead : ∀ q ∈ cl.head?, q.1 < P.1) (hne : cl ≠ []) (hcu : ∀ q ∈ cu, q.1 < P.1) :
  ∃ a t, tangent P cl = a :: t ∧ a.1 < P.1 ∧
    Bracket ups (P :: lows) (a :: t) ((push (mirror P) (cu.map mirror)).map mirror)
      (through a P) hi P.1
  := by
  obtain ⟨a, t, hat, haP, hbelow⟩ := tangent_below h.cl_sorted h.cl_convex hcl hhead hne
  have hsuffix : a :: t <:+ cl := by
    rw [← hat]
    apply tangent_suffix P cl
  have hacl : a ∈ cl := hsuffix.subset List.mem_cons_self
  have hright : (through a P).eval P.1 = P.2 := through_right haP.ne
  have hcu' : ∀ q ∈ cu.map mirror, q.1 < (mirror P).1 := by
    intro q hq
    obtain ⟨p, hp, rfl⟩ := List.mem_map.mp hq
    apply hcu p hp
  have habove : ∀ f : Affine K,
      (∀ q ∈ (push (mirror P) (cu.map mirror)).map mirror, q.2 ≤ f.eval q.1) →
      (∀ q ∈ cu, q.2 ≤ f.eval q.1) ∧ P.2 ≤ f.eval P.1 := by
    intro f hf
    have hflip : ∀ q ∈ push (mirror P) (cu.map mirror), (flip f).eval q.1 ≤ q.2 := by
      intro q hq
      have hle := hf _ (List.mem_map_of_mem hq)
      rw [flip_eval]
      simp only [mirror] at hle
      linarith
    obtain ⟨hold, hP⟩ := push_below h.cu_sorted hcu' hflip
    rw [flip_eval] at hP
    simp only [mirror] at hP
    refine ⟨?_, by linarith⟩
    intro q hq
    have hle := hold _ (List.mem_map_of_mem hq)
    rw [flip_eval] at hle
    simp only [mirror] at hle
    linarith
  have hkeeps : Keeps ups lows (through a P) := by
    obtain ⟨g, hg, hgP⟩ := h.lo_keeps.interpolate h.hi_keeps hlo hhi
    have hga : g.eval a.1 ≤ (through a P).eval a.1 := by
      rw [through_left]
      apply hg.le a (h.cl_sub a hacl)
    apply h.implied
    use hbelow
    intro q hq
    apply le_trans (hg.ge q (h.cu_sub q hq))
    rcases le_total q.1 a.1 with hqa | hqa
    · apply le_left_of_cross haP hga (by rw [hright, hgP]) hqa
    · apply le_between hga (by rw [hright, hgP]) hqa (hcu q hq).le
  use a, t, hat, haP
  constructor
  · exact fun q hq => h.cl_sub q (hsuffix.subset hq)
  · intro q hq
    obtain ⟨p, hp, rfl⟩ := List.mem_map.mp hq
    obtain rfl | hp := mem_push hp
    · rw [mirror_mirror]
      apply List.mem_cons_self
    · obtain ⟨r, hr, rfl⟩ := List.mem_map.mp hp
      rw [mirror_mirror]
      apply List.mem_cons_of_mem P (h.cu_sub r hr)
  · apply h.cl_sorted.sublist hsuffix.sublist
  · rw [map_mirror_mirror]
    apply push_sorted h.cu_sorted hcu'
  · apply h.cl_convex.of_infix hsuffix.isInfix
  · rw [map_mirror_mirror]
    apply push_convex h.cu_convex
  · exact fun q hq => le_trans (h.ups_le q hq) hX
  · intro q hq
    obtain rfl | hq := List.mem_cons.mp hq
    · apply le_rfl
    · apply le_trans (h.lows_le q hq) hX
  · use hkeeps.le
    intro q hq
    obtain rfl | hq := List.mem_cons.mp hq
    · apply hright.ge
    · apply hkeeps.ge q hq
  · use h.hi_keeps.le
    intro q hq
    obtain rfl | hq := List.mem_cons.mp hq
    · apply hhi
    · apply h.hi_keeps.ge q hq
  · intro f hf
    obtain ⟨hfcu, hfP⟩ := habove f hf.ge
    have hfa : f.eval a.1 ≤ (through a P).eval a.1 := by
      rw [through_left]
      apply hf.le a List.mem_cons_self
    have hfcl : ∀ q ∈ cl, f.eval q.1 ≤ q.2 := by
      intro q hq
      obtain ⟨pre, hpre⟩ := hsuffix
      rw [← hpre] at hq
      obtain hq | hq := List.mem_append.mp hq
      · have hsorted := h.cl_sorted
        rw [← hpre] at hsorted
        have hqa := (List.pairwise_append.mp hsorted).2.2 q hq a List.mem_cons_self
        apply le_trans (le_left_of_cross haP hfa (by rw [hright]; exact hfP) hqa.le)
        apply hbelow
        rw [← hpre]
        apply List.mem_append_left _ hq
      · apply hf.le q hq
    have hold := h.implied f ⟨hfcl, hfcu⟩
    use hold.le
    intro q hq
    obtain rfl | hq := List.mem_cons.mp hq
    · apply hfP
    · apply hold.ge q hq
  · intro f hf x hx
    have hold : Keeps ups lows f := ⟨hf.le, fun q hq => hf.ge q (List.mem_cons_of_mem P hq)⟩
    refine ⟨?_, (h.right f hold x (le_trans hX hx)).2⟩
    apply le_right_of_cross haP _ _ hx
    · rw [through_left]
      apply hf.le a (h.cl_sub a hacl)
    · rw [hright]
      apply hf.ge P List.mem_cons_self

/-- A new upper bound that `hi` keeps. -/
theorem keepUp (h : Bracket ups lows cl cu lo hi X) (hX : X ≤ P.1) (hhi : hi.eval P.1 ≤ P.2) :
  Bracket (P :: ups) lows cl cu lo hi P.1
  := by
  have hle : (mirror P).2 ≤ (flip hi).eval (mirror P).1 := by
    rw [flip_eval]
    simp only [mirror]
    linarith
  have hflip := (h.flipped.keep (P := mirror P) hX hle).flipped
  simp only [List.map_cons, mirror_mirror, map_mirror_mirror, flip_flip] at hflip
  apply hflip

/-- A new upper bound below `hi`. -/
theorem lower (h : Bracket ups lows cl cu lo hi X) (hX : X ≤ P.1) (hhi : P.2 < hi.eval P.1)
    (hlo : lo.eval P.1 ≤ P.2) (hcu : ∀ q ∈ cu, q.1 < P.1 ∨ q.1 = P.1 ∧ q.2 ≤ P.2)
    (hhead : ∀ q ∈ cu.head?, q.1 < P.1) (hne : cu ≠ []) (hcl : ∀ q ∈ cl, q.1 < P.1) :
  ∃ b t, tangent (mirror P) (cu.map mirror) = (b :: t).map mirror ∧ b.1 < P.1 ∧
    Bracket (P :: ups) lows (push P cl) (b :: t) lo (through b P) P.1
  := by
  have hmem : ∀ {l : List (K × K)} {q : K × K}, q ∈ l.map mirror → ∃ p ∈ l, mirror p = q
    := List.mem_map.mp
  obtain ⟨a, t, hat, haP, hb⟩ := h.flipped.raise (P := mirror P) hX
    (by rw [flip_eval]; simp only [mirror]; linarith)
    (by rw [flip_eval]; simp only [mirror]; linarith)
    (by
      intro q hq
      obtain ⟨p, hp, rfl⟩ := hmem hq
      apply (hcu p hp).imp id
      rintro ⟨h₁, h₂⟩
      exact ⟨h₁, by simp only [mirror]; linarith⟩)
    (by
      intro q hq
      rw [List.head?_map, Option.mem_def, Option.map_eq_some_iff] at hq
      obtain ⟨p, hp, rfl⟩ := hq
      exact hhead p hp)
    (by simpa using hne)
    (by
      intro q hq
      obtain ⟨p, hp, rfl⟩ := hmem hq
      exact hcl p hp)
  refine ⟨mirror a, t.map mirror, ?_, haP, ?_⟩
  · rw [hat]
    simp [Function.comp_def]
  · have hflip := hb.flipped
    have hthrough : flip (through a (mirror P)) = through (mirror a) P := by
      rw [← flip_through (mirror a) P, mirror_mirror]
    simp only [List.map_cons, mirror_mirror, map_mirror_mirror, flip_flip, hthrough] at hflip
    apply hflip

/-- Two upper and two lower bounds. -/
theorem of_two {x₀ x₁ l₀ l₁ u₀ u₁ : K} (hx : x₀ < x₁) (h₀ : l₀ ≤ u₀) (h₁ : l₁ ≤ u₁) :
  Bracket [(x₁, u₁), (x₀, u₀)] [(x₁, l₁), (x₀, l₀)] [(x₀, u₀), (x₁, u₁)] [(x₀, l₀), (x₁, l₁)]
    (through (x₀, u₀) (x₁, l₁)) (through (x₀, l₀) (x₁, u₁)) x₁
  := by
  have hleft : ∀ y y' : K, (through (x₀, y) (x₁, y')).eval x₀ = y := fun y y' => through_left _ _
  have hright : ∀ y y' : K, (through (x₀, y) (x₁, y')).eval x₁ = y'
    := fun y y' => through_right (p := (x₀, y)) (q := (x₁, y')) hx.ne
  have hconvex : ∀ p q : K × K, Convex [p, q] := by
    intro p q a b c habc
    have := habc.length_le
    simp at this
  constructor
  · simp [or_comm]
  · simp [or_comm]
  · simpa [Sorted] using hx
  · simpa [Sorted, mirror] using hx
  · apply hconvex _ _
  · apply hconvex _ _
  · simp [hx.le]
  · simp [hx.le]
  · constructor
    · simp [hleft, hright, h₁]
    · simp [hleft, hright, h₀]
  · constructor
    · simp [hleft, hright, h₀]
    · simp [hleft, hright, h₁]
  · intro f hf
    refine ⟨fun q hq => hf.le q ?_, fun q hq => hf.ge q ?_⟩
    · simpa [or_comm] using hq
    · simpa [or_comm] using hq
  · intro f hf x hx'
    have hu₀ := hf.le (x₀, u₀) (by simp)
    have hu₁ := hf.le (x₁, u₁) (by simp)
    have hl₀ := hf.ge (x₀, l₀) (by simp)
    have hl₁ := hf.ge (x₁, l₁) (by simp)
    constructor
    · apply le_right_of_cross hx _ _ hx'
      · rw [hleft]
        apply hu₀
      · rw [hright]
        apply hl₁
    · apply le_right_of_cross hx _ _ hx'
      · rw [hleft]
        apply hl₀
      · rw [hright]
        apply hu₁

end Bracket

end Hull
