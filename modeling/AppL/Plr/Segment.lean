import AppL.Lib.Hull
import AppL.Plr.Insert

/-!
# The open segment

The chains of the open segment are convex chains of the bounds of its points, and `lower` and
`upper` are the slopes of the extreme lines that keep all bounds.  A line with a slope between
them through the common point of the extreme lines keeps the bounds, too.
-/

namespace AppL

open Transition Hull

namespace Plr

variable (p : Param)

/-- A point with rational coordinates. -/
def pt (q : Dot) : ℚ × ℚ := (q.x, q.y)

/-- The upper bound of a point. -/
def up (q : Dot) : Dot := ⟨q.x, q.y + p.delta⟩

/-- The lower bound of a point. -/
def low (q : Dot) : Dot := ⟨q.x, q.y - p.delta⟩

/-! ### Chains -/

section Chains

variable (q : Dot)

theorem lt_getSlope (it r : Dot) :
  (getSlope it q).lt (getSlope r q) = true
    ↔ ((pt q).2 - (pt it).2) * ((pt q).1 - (pt r).1) < ((pt q).1 - (pt it).1) * ((pt q).2 - (pt r).2)
  := by
  rw [Slope.lt, decide_eq_true_eq]
  simp only [getSlope, pt]
  norm_cast

/-- The loop over `cvx_lower` finds the tangent. -/
theorem maxFrom_eq (l : List Dot) :
  ∀ it, ∃ s, Builder.maxFrom q (getSlope it q) (some (it :: l)) l = some s
    ∧ s.map pt = tangent (pt q) ((it :: l).map pt)
  := by
  induction l with
  | nil => exact fun it => ⟨[it], rfl, rfl⟩
  | cons r l ih =>
      intro it
      unfold Builder.maxFrom
      rw [List.map_cons, List.map_cons]
      unfold tangent
      by_cases hlt : (getSlope it q).lt (getSlope r q) = true
      · rw [if_pos hlt, if_pos ((lt_getSlope q it r).mp hlt)]
        apply ih r
      · rw [if_neg hlt, if_neg (mt (lt_getSlope q it r).mpr hlt)]
        exact ⟨_, rfl, rfl⟩

/-- The loop over `cvx_upper` finds the tangent of the mirror image, and its slope is less
than the first bound. -/
theorem minFrom_eq (l : List Dot) :
  ∀ it, ∃ s, Builder.minFrom q (getSlope it q) (some (it :: l)) l = some s
    ∧ s.map (fun r => mirror (pt r))
      = tangent (mirror (pt q)) ((it :: l).map fun r => mirror (pt r))
  := by
  induction l with
  | nil => exact fun it => ⟨[it], rfl, rfl⟩
  | cons r l ih =>
      intro it
      have hiff : (getSlope r q).lt (getSlope it q) = true
          ↔ ((mirror (pt q)).2 - (mirror (pt it)).2) * ((mirror (pt q)).1 - (mirror (pt r)).1)
            < ((mirror (pt q)).1 - (mirror (pt it)).1)
              * ((mirror (pt q)).2 - (mirror (pt r)).2) := by
        rw [lt_getSlope]
        simp only [mirror]
        constructor
        · intro h
          linarith
        · intro h
          linarith
      unfold Builder.minFrom
      rw [List.map_cons, List.map_cons]
      unfold tangent
      by_cases hlt : (getSlope r q).lt (getSlope it q) = true
      · rw [if_pos hlt, if_pos (hiff.mp hlt)]
        apply ih r
      · rw [if_neg hlt, if_neg (mt hiff.mpr hlt)]
        exact ⟨_, rfl, rfl⟩

theorem ccw_ne_iff (jt kt : Dot) :
  (ccw q jt kt ≠ -1 ↔ ¬ 0 < cross (pt kt) (pt jt) (pt q))
    ∧ (ccw q jt kt ≠ 1 ↔ ¬ 0 < cross (mirror (pt kt)) (mirror (pt jt)) (mirror (pt q)))
  := by
  have hcast : (((jt.x - q.x) * (kt.y - q.y) - (jt.y - q.y) * (kt.x - q.x) : ℤ) : ℚ)
      = -cross (pt kt) (pt jt) (pt q) := by
    simp only [cross, pt]
    push_cast
    ring
  have hmirror : cross (mirror (pt kt)) (mirror (pt jt)) (mirror (pt q))
      = -cross (pt kt) (pt jt) (pt q) := by
    simp only [cross, mirror]
    ring
  have hneg : ccw q jt kt = -1 ↔ 0 < cross (pt kt) (pt jt) (pt q) := by
    rw [ccw, Int.sign_eq_neg_one_iff_neg, ← @Int.cast_lt_zero ℚ, hcast, neg_lt_zero]
  have hpos : ccw q jt kt = 1 ↔ 0 < cross (mirror (pt kt)) (mirror (pt jt)) (mirror (pt q)) := by
    rw [ccw, Int.sign_eq_one_iff_pos, ← @Int.cast_pos ℚ, hcast, hmirror]
  exact ⟨not_congr hneg, not_congr hpos⟩

theorem eraseBack_eq (l : List Dot) :
  (Builder.eraseBack (-1) q l).map pt = prune (pt q) (l.map pt)
    ∧ (Builder.eraseBack 1 q l).map (fun r => mirror (pt r))
      = prune (mirror (pt q)) (l.map fun r => mirror (pt r))
  := by
  induction l with
  | nil => exact ⟨rfl, rfl⟩
  | cons jt l ih =>
      cases l with
      | nil => exact ⟨rfl, rfl⟩
      | cons kt l =>
          obtain ⟨hlower, hupper⟩ := ccw_ne_iff q jt kt
          obtain ⟨ihlower, ihupper⟩ := ih
          constructor
          · unfold Builder.eraseBack
            rw [List.map_cons, List.map_cons]
            unfold prune
            by_cases h : ccw q jt kt ≠ -1
            · rw [if_pos h, if_neg (hlower.mp h)]
              apply ihlower
            · rw [if_neg h, if_pos (not_not.mp (mt hlower.mpr h))]
              rfl
          · unfold Builder.eraseBack
            rw [List.map_cons, List.map_cons]
            unfold prune
            by_cases h : ccw q jt kt ≠ 1
            · rw [if_pos h, if_neg (hupper.mp h)]
              apply ihupper
            · rw [if_neg h, if_pos (not_not.mp (mt hupper.mpr h))]
              rfl

theorem pushBack_lower (l : List Dot) :
  (Builder.pushBack (-1) q l).map pt = push (pt q) (l.map pt)
  := by
  unfold Builder.pushBack push
  rw [List.map_append, List.map_reverse, (eraseBack_eq q l.reverse).1, List.map_reverse]
  rfl

theorem pushBack_upper (l : List Dot) :
  (Builder.pushBack 1 q l).map pt = (push (mirror (pt q)) ((l.map pt).map mirror)).map mirror
  := by
  have h := (eraseBack_eq q l.reverse).2
  have hmap : ∀ l : List Dot, (l.map fun r => mirror (pt r)) = (l.map pt).map mirror := by
    intro l
    rw [List.map_map]
    rfl
  rw [hmap, hmap] at h
  unfold Builder.pushBack push
  rw [List.map_append, List.map_append, List.map_reverse, List.map_reverse,
    ← List.map_reverse (f := mirror) (l := l.map pt), ← List.map_reverse (f := pt) (l := l), ← h,
    map_mirror_mirror]
  simp

theorem eraseBack_suffix (sign : ℤ) (l : List Dot) :
  Builder.eraseBack sign q l <:+ l ∧ (l ≠ [] → Builder.eraseBack sign q l ≠ [])
  := by
  induction l with
  | nil => use List.suffix_refl _, id
  | cons jt l ih =>
      cases l with
      | nil => use List.suffix_refl _, id
      | cons kt l =>
          unfold Builder.eraseBack
          split
          · use ih.1.trans (List.suffix_cons _ _), fun _ => ih.2 (by simp)
          · use List.suffix_refl _, id

/-- A chain keeps its first point, and has no others than before and the new one. -/
theorem pushBack_initial (sign : ℤ) {l : List Dot} (hne : l ≠ []) :
  (Builder.pushBack sign q l).head? = l.head?
    ∧ ∀ d ∈ Builder.pushBack sign q l, d ∈ l ∨ d = q
  := by
  obtain ⟨hsuffix, hnil⟩ := eraseBack_suffix q sign l.reverse
  obtain ⟨t, ht⟩ := hsuffix
  have hl : (Builder.eraseBack sign q l.reverse).reverse ++ t.reverse = l := by
    rw [← List.reverse_append, ht, List.reverse_reverse]
  have hne' : (Builder.eraseBack sign q l.reverse).reverse ≠ [] := by
    intro h
    apply hnil (List.reverse_ne_nil_iff.mpr hne) (List.reverse_eq_nil_iff.mp h)
  unfold Builder.pushBack
  constructor
  · rw [List.head?_append_of_ne_nil _ hne']
    nth_rewrite 2 [← hl]
    rw [List.head?_append_of_ne_nil _ hne']
  · intro d hd
    apply (List.mem_append.mp hd).imp _ List.mem_singleton.mp
    intro hd
    rw [← hl]
    apply List.mem_append_left _ hd

end Chains

/-! ### Slopes -/

section Slopes

variable {p} {lower upper : Slope}

theorem bit_pos (p : Param) :
  0 < p.bit
  := by
  unfold Param.bit
  positivity

/-- The search ends. -/
theorem slopeSearch_ok {fuel : ℕ} :
  ∀ {k : ℕ} {lo hi : ℤ}, hi - lo = 2 ^ k → k ≤ fuel →
    ∃ a, slopeSearch p lower upper fuel lo hi = .ok a
  := by
  induction fuel with
  | zero =>
      intro k lo hi hgap hk
      obtain rfl : k = 0 := by omega
      use -1, by rw [slopeSearch, if_pos (by simpa using hgap)]
  | succ fuel ih =>
      intro k lo hi hgap hk
      unfold slopeSearch
      split
      · exact ⟨-1, rfl⟩
      · rename_i hne
        cases k with
        | zero => exact absurd (by simpa using hgap) hne
        | succ k =>
            rw [pow_succ] at hgap
            have hmid : (lo + hi) / 2 = lo + 2 ^ k := by omega
            dsimp only
            rw [hmid]
            split
            · apply ih (k := k) (by omega) (by omega)
            · split
              · apply ih (k := k) (by omega) (by omega)
              · exact ⟨_, rfl⟩

/-- What the search finds. -/
theorem slopeSearch_spec {fuel : ℕ} :
  ∀ {lo hi a : ℤ}, 0 ≤ lo → lo < hi → slopeSearch p lower upper fuel lo hi = .ok a → a ≠ -1 →
    0 ≤ a ∧ a < hi ∧ lower.n * p.bit < a * lower.d ∧ a * upper.d < upper.n * p.bit
  := by
  induction fuel with
  | zero =>
      intro lo hi a _ _ hs hne
      unfold slopeSearch at hs
      split at hs
      · cases hs
        exact absurd rfl hne
      · cases hs
  | succ fuel ih =>
      intro lo hi a hlo hlt hs hne
      unfold slopeSearch at hs
      split at hs
      · cases hs
        exact absurd rfl hne
      · rename_i hgap
        dsimp only at hs
        split at hs
        · obtain ⟨h₁, h₂, h₃⟩ := ih hlo (by omega) hs hne
          exact ⟨h₁, by omega, h₃⟩
        · rename_i hup
          split at hs
          · apply ih (by omega) (by omega) hs hne
          · rename_i hlow
            cases hs
            use by omega, by omega, by omega, by omega

theorem existQuantizedSlope_ok (p : Param) (lower upper : Slope) :
  ∃ a, existQuantizedSlope p lower upper = .ok a
  := by
  unfold existQuantizedSlope
  split
  · exact ⟨_, rfl⟩
  · split
    · exact ⟨_, rfl⟩
    · split
      · exact ⟨_, rfl⟩
      · apply slopeSearch_ok (k := p.aBit) _ le_rfl
        rw [sub_zero, Param.bit]

/-- A quantized slope is between the slopes. -/
theorem existQuantizedSlope_spec {a : ℤ} (hs : existQuantizedSlope p lower upper = .ok a)
    (hne : a ≠ -1) :
  0 ≤ a ∧ a < p.bit ∧ lower.n * p.bit < a * lower.d ∧ a * upper.d < upper.n * p.bit
  := by
  have hbit := bit_pos p
  unfold existQuantizedSlope at hs
  split at hs
  · cases hs
    exact absurd rfl hne
  · rename_i hup
    split at hs
    · rename_i hlow
      cases hs
      refine ⟨le_rfl, hbit, ?_, ?_⟩
      · rw [zero_mul]
        apply mul_neg_of_neg_of_pos hlow hbit
      · rw [zero_mul]
        apply mul_pos (by omega) hbit
    · split at hs
      · cases hs
        exact absurd rfl hne
      · apply slopeSearch_spec le_rfl hbit hs hne

/-- The least slope is less than one when there is a quantized slope. -/
theorem lower_lt_one {a : ℤ} (hs : existQuantizedSlope p lower upper = .ok a) (hne : a ≠ -1)
    (hd : 0 < lower.d) :
  lower.n < lower.d
  := by
  have hbit := bit_pos p
  obtain ⟨-, h₁, h₂, -⟩ := existQuantizedSlope_spec hs hne
  by_contra hge
  have h₃ := mul_le_mul_of_nonneg_right (not_lt.mp hge) hbit.le
  have h₄ := mul_lt_mul_of_pos_right h₁ hd
  linarith [mul_comm lower.d p.bit]

end Slopes

/-! ### The extreme lines -/

/-- The upper bounds of points. -/
def ups (ms : List Dot) : List (ℚ × ℚ) := ms.reverse.map fun m => pt (up p m)

/-- The lower bounds of points. -/
def lows (ms : List Dot) : List (ℚ × ℚ) := ms.reverse.map fun m => pt (low p m)

/-- The open segment has the points `ms`, at least two of them, the last one at `x`. -/
structure Extreme (ms : List Dot) (x : ℤ) (s : Builder) : Prop where
  bracket : Bracket (ups p ms) (lows p ms) (s.cvxLower.map pt) (s.cvxUpper.map pt)
    (through (pt s.sa) (pt s.sc)) (through (pt s.sb) (pt s.sd)) x
  sa_lt : s.sa.x < s.sc.x
  sb_lt : s.sb.x < s.sd.x
  lower : s.lower = getSlope s.sa s.sc
  upper : s.upper = getSlope s.sb s.sd
  headLower : s.cvxLower.head? = some s.sa
  headUpper : s.cvxUpper.head? = some s.sb
  upper_lt : s.upper.n < 10000 * s.upper.d

section Extreme

variable {p} {ms : List Dot} {x : ℤ} {s : Builder}

theorem bit_lt (p : Param) :
  p.bit < 10 ^ 9
  := by
  have hwidth := p.width
  have hlog : 6 ≤ (100 + p.range).log2 := by
    rw [Nat.le_log2 (by omega)]
    omega
  have hle : p.aBit ≤ 23 := by
    unfold Param.aBit
    omega
  calc p.bit ≤ 2 ^ 23 := pow_le_pow_right₀ (by norm_num) hle
    _ < 10 ^ 9 := by norm_num

theorem through_slope (a b : Dot) :
  (through (pt a) (pt b)).slope = ((getSlope a b).n : ℚ) / (getSlope a b).d
  := by
  simp only [through, Affine.at, grad, pt, getSlope]
  push_cast
  rfl

/-- The intercept: it comes from a line that keeps the bounds. -/
theorem findInterceptO1_eq (h : Extreme p ms x s) {a : ℤ}
    (ha : s.lower.n * p.bit < a * s.lower.d) (ha' : a * s.upper.d < s.upper.n * p.bit) (o : Dot) :
  ∃ g : Affine ℚ, Keeps (ups p ms) (lows p ms) g ∧ g.slope = a / p.bit
    ∧ s.findInterceptO1 p o a
      = .ok (truncate ((g.eval o.x - o.y + p.delta + eps) * p.bit) - p.delta * p.bit)
  := by
  have hbit : (0 : ℚ) < p.bit := by exact_mod_cast bit_pos p
  have hsa : (0 : ℚ) < s.sc.x - s.sa.x := by
    rw [sub_pos]
    exact_mod_cast h.sa_lt
  have hsb : (0 : ℚ) < s.sd.x - s.sb.x := by
    rw [sub_pos]
    exact_mod_cast h.sb_lt
  have hlo : (through (pt s.sa) (pt s.sc)).slope < a / p.bit := by
    rw [through_slope, ← h.lower, div_lt_div_iff₀ _ hbit]
    · exact_mod_cast ha
    · rw [h.lower]
      simp only [getSlope]
      push_cast
      apply hsa
  have hhi : (a / p.bit : ℚ) < (through (pt s.sb) (pt s.sd)).slope := by
    rw [through_slope, ← h.upper, div_lt_div_iff₀ hbit]
    · exact_mod_cast ha'
    · rw [h.upper]
      simp only [getSlope]
      push_cast
      apply hsb
  have hp1 : ((s.sc.y - o.y - (s.sa.y - o.y) : ℤ) : ℚ) / ((s.sc.x - o.x - (s.sa.x - o.x) : ℤ) : ℚ)
      = (through (pt s.sa) (pt s.sc)).slope := by
    rw [through_slope]
    simp only [getSlope, sub_sub_sub_cancel_right]
  have hp2 : ((s.sd.y - o.y - (s.sb.y - o.y) : ℤ) : ℚ) / ((s.sd.x - o.x - (s.sb.x - o.x) : ℤ) : ℚ)
      = (through (pt s.sb) (pt s.sd)).slope := by
    rw [through_slope]
    simp only [getSlope, sub_sub_sub_cancel_right]
  have hq1 : ∀ z : ℚ, (through (pt s.sa) (pt s.sc)).eval z
      = (through (pt s.sa) (pt s.sc)).slope * (z - s.sa.x) + s.sa.y := by
    intro z
    rw [through, eval_at]
    simp only [Affine.at, pt]
    ring
  have hq2 : ∀ z : ℚ, (through (pt s.sb) (pt s.sd)).eval z
      = (through (pt s.sb) (pt s.sd)).slope * (z - s.sb.x) + s.sb.y := by
    intro z
    rw [through, eval_at]
    simp only [Affine.at, pt]
    ring
  have hne : (through (pt s.sa) (pt s.sc)).slope - (through (pt s.sb) (pt s.sd)).slope ≠ 0 := by
    apply ne_of_lt
    linarith
  have hkeeps : ∀ {x y : ℚ}, (through (pt s.sa) (pt s.sc)).eval x = y →
      (through (pt s.sb) (pt s.sd)).eval x = y → Keeps (ups p ms) (lows p ms) (.at (x, y) (a / p.bit))
    := h.bracket.lo_keeps.pencil h.bracket.hi_keeps hlo hhi
  generalize hf : through (pt s.sa) (pt s.sc) = f at *
  generalize hk : through (pt s.sb) (pt s.sd) = k at *
  obtain ⟨X, hX⟩ : ∃ X : ℚ, X = ((-k.slope * ((s.sb.x - o.x : ℤ) : ℚ) + ((s.sb.y - o.y : ℤ) : ℚ))
      - (-f.slope * ((s.sa.x - o.x : ℤ) : ℚ) + ((s.sa.y - o.y : ℤ) : ℚ)))
      / (f.slope - k.slope) := ⟨_, rfl⟩
  have hXmul := div_mul_cancel₀ ((-k.slope * ((s.sb.x - o.x : ℤ) : ℚ) + ((s.sb.y - o.y : ℤ) : ℚ))
      - (-f.slope * ((s.sa.x - o.x : ℤ) : ℚ) + ((s.sa.y - o.y : ℤ) : ℚ))) hne
  rw [← hX] at hXmul
  push_cast at hXmul
  have hcommon : k.eval (o.x + X) = f.eval (o.x + X) := by
    rw [hq1, hq2]
    linarith
  refine ⟨.at (o.x + X, f.eval (o.x + X)) (a / p.bit), hkeeps rfl hcommon, rfl, ?_⟩
  unfold Builder.findInterceptO1
  dsimp only
  have hsc : s.sc.x - o.x - (s.sa.x - o.x) ≠ 0 := by
    have := h.sa_lt
    omega
  have hsd : s.sd.x - o.x - (s.sb.x - o.x) ≠ 0 := by
    have := h.sb_lt
    omega
  rw [hp1, hp2]
  refine bind_eq_ok.mpr ⟨(), require_eq_ok.mpr hsc, ?_⟩
  refine bind_eq_ok.mpr ⟨(), require_eq_ok.mpr hsd, ?_⟩
  refine bind_eq_ok.mpr ⟨(), require_eq_ok.mpr hne, ?_⟩
  rw [← hX]
  congr 4
  rw [eval_at, hq1]
  push_cast
  ring

/-- The line with the intercept keeps the bounds of all points of the segment. -/
theorem findInterceptO1_near (h : Extreme p ms x s) {a : ℤ}
    (ha : s.lower.n * p.bit < a * s.lower.d) (ha' : a * s.upper.d < s.upper.n * p.bit) {o : Dot}
    (ho : o ∈ ms) :
  ∃ b, s.findInterceptO1 p o a = .ok b ∧ ∀ m ∈ ms,
    (m.y - p.delta) * p.bit ≤ o.y * p.bit + (m.x - o.x) * a + b
      ∧ o.y * p.bit + (m.x - o.x) * a + b ≤ (m.y + p.delta) * p.bit
  := by
  have hbit : (0 : ℚ) < p.bit := by exact_mod_cast bit_pos p
  have hbit' : (p.bit : ℚ) < 10 ^ 9 := by exact_mod_cast bit_lt p
  obtain ⟨g, hg, hslope, heq⟩ := findInterceptO1_eq h ha ha' o
  have hkeeps : ∀ m ∈ ms, (m.y - p.delta : ℚ) ≤ g.eval m.x ∧ g.eval m.x ≤ (m.y + p.delta : ℚ) := by
    intro m hm
    have hup := hg.le (pt (up p m)) (List.mem_map_of_mem (List.mem_reverse.mpr hm))
    have hlow := hg.ge (pt (low p m)) (List.mem_map_of_mem (List.mem_reverse.mpr hm))
    simp only [pt, up, low] at hup hlow
    push_cast at hup hlow
    use hlow, hup
  have heps : eps * p.bit < 1 := by
    unfold eps
    rw [div_mul_eq_mul_div, one_mul, div_lt_one (by norm_num)]
    apply hbit'
  have heps' : 0 < eps * p.bit := by
    apply mul_pos _ hbit
    unfold eps
    positivity
  generalize hr : (g.eval o.x - o.y + p.delta + eps) * p.bit = r at heq
  have hr₀ : 0 ≤ r := by
    rw [← hr]
    apply mul_nonneg _ hbit.le
    have hpos : 0 < eps := pos_of_mul_pos_left heps' hbit.le
    linarith [(hkeeps o ho).1]
  refine ⟨_, heq, ?_⟩
  rw [truncate, if_pos hr₀]
  have hfloor := Int.floor_le r
  have hfloor' := Int.lt_floor_add_one r
  intro m hm
  obtain ⟨hm₁, hm₂⟩ := hkeeps m hm
  have hval : (m.x - o.x : ℚ) * a = (g.eval m.x - g.eval o.x) * p.bit := by
    unfold Affine.eval
    rw [hslope]
    field_simp
    ring
  have hm₁' := mul_le_mul_of_nonneg_right hm₁ hbit.le
  have hm₂' := mul_le_mul_of_nonneg_right hm₂ hbit.le
  constructor
  · have hlt : (((m.y - p.delta) * p.bit - 1 : ℤ) : ℚ)
        < ((o.y * p.bit + (m.x - o.x) * a + (⌊r⌋ - p.delta * p.bit) : ℤ) : ℚ) := by
      push_cast
      linarith
    have hlt' := Int.cast_lt.mp hlt
    omega
  · have hlt : ((o.y * p.bit + (m.x - o.x) * a + (⌊r⌋ - p.delta * p.bit) : ℤ) : ℚ)
        < (((m.y + p.delta) * p.bit + 1 : ℤ) : ℚ) := by
      push_cast
      linarith
    have hlt' := Int.cast_lt.mp hlt
    omega

/-! ### A new point -/

theorem line_sub {a b : Dot} (hab : a.x < b.x) (z : Dot) :
  ((b.x - a.x : ℤ) : ℚ) * (z.y - (through (pt a) (pt b)).eval z.x)
    = (((b.x - a.x) * (z.y - b.y) - (z.x - b.x) * (b.y - a.y) : ℤ) : ℚ)
  := by
  have hpos : (0 : ℚ) < b.x - a.x := by
    rw [sub_pos]
    exact_mod_cast hab
  rw [through, eval_at, grad]
  simp only [pt]
  push_cast
  field_simp
  ring

/-- The line is below a point. -/
theorem line_lt_iff {a b : Dot} (hab : a.x < b.x) (z : Dot) :
  (through (pt a) (pt b)).eval z.x < z.y
    ↔ (z.x - b.x) * (getSlope a b).n < (getSlope a b).d * (z.y - b.y)
  := by
  have hpos : (0 : ℚ) < ((b.x - a.x : ℤ) : ℚ) := by exact_mod_cast sub_pos.mpr hab
  rw [← sub_pos, ← mul_pos_iff_of_pos_left hpos, line_sub hab, Int.cast_pos, sub_pos]
  rfl

/-- The line is above a point. -/
theorem lt_line_iff {a b : Dot} (hab : a.x < b.x) (z : Dot) :
  z.y < (through (pt a) (pt b)).eval z.x
    ↔ (getSlope a b).d * (z.y - b.y) < (z.x - b.x) * (getSlope a b).n
  := by
  have hpos : (0 : ℚ) < ((b.x - a.x : ℤ) : ℚ) := by exact_mod_cast sub_pos.mpr hab
  rw [← sub_neg, ← neg_pos, ← mul_pos_iff_of_pos_left hpos, mul_neg, line_sub hab,
    ← Int.cast_neg, Int.cast_pos, neg_pos, sub_neg]
  rfl

/-- What the updates of the extreme lines leave alone. -/
structure SameStore (s s' : Builder) : Prop where
  store : s'.store = s.store
  member : s'.member = s.member
  ppaMin : s'.ppaMin = s.ppaMin
  ppaMax : s'.ppaMax = s.ppaMax
  lbaPrev : s'.lbaPrev = s.lbaPrev

theorem SameStore.refl (s : Builder) :
  SameStore s s
  := ⟨rfl, rfl, rfl, rfl, rfl⟩

theorem SameStore.trans {s s' s'' : Builder} (h : SameStore s s') (h' : SameStore s' s'') :
  SameStore s s''
  where
    store := h'.store.trans h.store
    member := h'.member.trans h.member
    ppaMin := h'.ppaMin.trans h.ppaMin
    ppaMax := h'.ppaMax.trans h.ppaMax
    lbaPrev := h'.lbaPrev.trans h.lbaPrev

theorem pt_inj {a b : Dot} (h : pt a = pt b) :
  a = b
  := by
  obtain ⟨hx, hy⟩ := Prod.mk.inj h
  cases a
  cases b
  simp only [Int.cast_inj] at hx hy
  rw [hx, hy]

/-- A point of `cvx_lower` is the upper bound of a point of the segment. -/
theorem Extreme.mem_lower (h : Extreme p ms x s) {a : Dot} (ha : a ∈ s.cvxLower) :
  ∃ m ∈ ms, a = up p m ∧ a.x ≤ x
  := by
  have hmem := h.bracket.cl_sub _ (List.mem_map_of_mem ha)
  have hle := h.bracket.ups_le _ hmem
  obtain ⟨m, hm, heq⟩ := List.mem_map.mp hmem
  use m, List.mem_reverse.mp hm, (pt_inj heq).symm, Int.cast_le.mp hle

/-- A point of `cvx_upper` is the lower bound of a point of the segment. -/
theorem Extreme.mem_upper (h : Extreme p ms x s) {a : Dot} (ha : a ∈ s.cvxUpper) :
  ∃ m ∈ ms, a = low p m ∧ a.x ≤ x
  := by
  have hmem := h.bracket.cu_sub _ (List.mem_map_of_mem ha)
  have hle := h.bracket.lows_le _ hmem
  obtain ⟨m, hm, heq⟩ := List.mem_map.mp hmem
  use m, List.mem_reverse.mp hm, (pt_inj heq).symm, Int.cast_le.mp hle

/-- The extreme lines after the lower bound of a new point `q`. -/
structure Raised (ms : List Dot) (q : Dot) (s s' : Builder) : Prop where
  same : SameStore s s'
  bracket : Bracket (ups p ms) (pt (low p q) :: lows p ms) (s'.cvxLower.map pt)
    (s'.cvxUpper.map pt) (through (pt s'.sa) (pt s'.sc)) (through (pt s'.sb) (pt s'.sd)) q.x
  sa_lt : s'.sa.x < s'.sc.x
  lower : s'.lower = getSlope s'.sa s'.sc
  headLower : s'.cvxLower.head? = some s'.sa
  sb : s'.sb = s.sb
  sd : s'.sd = s.sd
  upper : s'.upper = s.upper
  headUpper : s'.cvxUpper.head? = s.cvxUpper.head?
  lower_lt : ∀ a ∈ s'.cvxLower, a.x < q.x
  upper_le : ∀ a ∈ s'.cvxUpper, a.x < q.x ∨ a = low p q
  below : (through (pt s'.sa) (pt s'.sc)).eval q.x ≤ (up p q).y

theorem delta_nonneg (p : Param) :
  0 ≤ p.delta
  := by
  unfold Param.delta tick
  omega

/-- What `updateLower` does with the part of the chain that the loop finds. -/
theorem updateLower_eq {q a : Dot} {l : List Dot}
    (hlt : (through (pt s.sa) (pt s.sc)).eval q.x < (low p q).y) (hsa : s.sa.x < s.sc.x)
    (hlower : s.lower = getSlope s.sa s.sc)
    (hmax : Builder.maxFrom (low p q) ⟨-10000, 1⟩ none s.cvxLower = some (a :: l)) :
  s.updateLower p q = .ok { s with
    sa := a
    sc := low p q
    cvxLower := a :: l
    lower := getSlope a (low p q)
    cvxUpper := Builder.pushBack 1 (low p q) s.cvxUpper }
  := by
  have hlt' := (line_lt_iff hsa (low p q)).mp hlt
  rw [← hlower] at hlt'
  refine Eq.trans (if_pos hlt') ?_
  rw [low] at hmax
  rw [hmax]
  rfl

/-- The points of the chains are in front of a new point. -/
theorem Extreme.chains_lt {q : Dot} (h : Extreme p ms x s) (hx : x < q.x) :
  (∀ a ∈ s.cvxLower, a.x < q.x) ∧ ∀ a ∈ s.cvxUpper, a.x < q.x
  := by
  constructor
  · intro a ha
    obtain ⟨m, -, -, hle⟩ := h.mem_lower ha
    omega
  · intro a ha
    obtain ⟨m, -, -, hle⟩ := h.mem_upper ha
    omega

/-- The slope from `sa` to the lower bound of a new point is one for the loop to begin with. -/
theorem Extreme.first_lower {q : Dot} (h : Extreme p ms x s) (hrange : p.range < 2400)
    (hx : x < q.x) (hy : ∀ m ∈ ms, m.y ≤ q.y) :
  (⟨-10000, 1⟩ : Slope).lt (getSlope s.sa (low p q)) = true
  := by
  have hδ : p.delta < 2500 := by
    unfold Param.delta tick
    omega
  have hmem : s.sa ∈ s.cvxLower := List.mem_of_head? h.headLower
  have hsax := (h.chains_lt hx).1 s.sa hmem
  obtain ⟨m, hm, hsa, -⟩ := h.mem_lower hmem
  have hym := hy m hm
  rw [Slope.lt, decide_eq_true_eq]
  simp only [getSlope, low]
  rw [hsa] at hsax ⊢
  simp only [up] at hsax ⊢
  omega

/-- The loop over `cvx_lower` finds the part of the chain whose first point gives the largest
slope, and the line through this point is the lower one for the new lower bound. -/
theorem Extreme.maxFrom_found {q : Dot} (h : Extreme p ms x s) (hrange : p.range < 2400)
    (hx : x < q.x) (hy : ∀ m ∈ ms, m.y ≤ q.y)
    (hlt : (through (pt s.sa) (pt s.sc)).eval q.x < (low p q).y)
    (hhi : (low p q).y < (through (pt s.sb) (pt s.sd)).eval q.x) :
  ∃ a t, Builder.maxFrom (low p q) ⟨-10000, 1⟩ none s.cvxLower = some (a :: t) ∧
    (∀ d ∈ a :: t, d ∈ s.cvxLower) ∧
    Bracket (ups p ms) (pt (low p q) :: lows p ms) ((a :: t).map pt)
      ((Builder.pushBack 1 (low p q) s.cvxUpper).map pt) (through (pt a) (pt (low p q)))
      (through (pt s.sb) (pt s.sd)) q.x
  := by
  have hxq : (x : ℚ) ≤ (pt (low p q)).1 := Int.cast_le.mpr hx.le
  obtain ⟨hlower_lt, hupper_lt⟩ := h.chains_lt hx
  obtain ⟨l, hl⟩ := List.head?_eq_some_iff.mp h.headLower
  obtain ⟨r, hr, hrt⟩ := maxFrom_eq (low p q) l s.sa
  rw [← hl] at hrt
  obtain ⟨a, t, hat, -, hb⟩ := h.bracket.raise (P := pt (low p q)) hxq hlt hhi.le
    (by
      intro z hz
      obtain ⟨d, hd, rfl⟩ := List.mem_map.mp hz
      exact .inl (Int.cast_lt.mpr (hlower_lt d hd)))
    (by
      intro z hz
      rw [hl] at hz
      cases hz
      exact Int.cast_lt.mpr (hlower_lt s.sa (List.mem_of_head? h.headLower)))
    (by simp [hl])
    (by
      intro z hz
      obtain ⟨d, hd, rfl⟩ := List.mem_map.mp hz
      exact Int.cast_lt.mpr (hupper_lt d hd))
  rw [hat] at hrt
  obtain ⟨a', t', rfl, rfl, rfl⟩ := List.map_eq_cons_iff.mp hrt
  refine ⟨a', t', ?_, ?_, ?_⟩
  · rw [hl, Builder.maxFrom, if_pos (h.first_lower hrange hx hy)]
    apply hr
  · intro d hd
    have hmem : pt d ∈ s.cvxLower.map pt := by
      apply (tangent_suffix (pt (low p q)) (s.cvxLower.map pt)).subset
      rw [hat]
      apply List.mem_map_of_mem hd
    obtain ⟨d', hd', heq⟩ := List.mem_map.mp hmem
    rw [← pt_inj heq]
    apply hd'
  · rw [pushBack_upper]
    apply hb

theorem updateLower_raised {q : Dot} (h : Extreme p ms x s) (hrange : p.range < 2400) (hx : x < q.x)
    (hy : ∀ m ∈ ms, m.y ≤ q.y)
    (hlo : (through (pt s.sa) (pt s.sc)).eval q.x < (up p q).y)
    (hhi : (low p q).y < (through (pt s.sb) (pt s.sd)).eval q.x) :
  ∃ s', s.updateLower p q = .ok s' ∧ Raised (p := p) ms q s s'
  := by
  obtain ⟨hlower_lt, hupper_lt⟩ := h.chains_lt hx
  by_cases hlt : (through (pt s.sa) (pt s.sc)).eval q.x < (low p q).y
  · obtain ⟨a, t, hmax, hsuffix, hb⟩ := h.maxFrom_found hrange hx hy hlt hhi
    have ha := hlower_lt a (hsuffix a List.mem_cons_self)
    have hne : s.cvxUpper ≠ [] := by
      intro hnil
      have hhead := h.headUpper
      rw [hnil] at hhead
      cases hhead
    obtain ⟨hhead, hmem⟩ := pushBack_initial (low p q) 1 hne
    refine ⟨_, updateLower_eq hlt h.sa_lt h.lower hmax, ⟨rfl, rfl, rfl, rfl, rfl⟩, hb, ha, rfl,
      rfl, rfl, rfl, rfl, hhead, ?_, ?_, ?_⟩
    · intro d hd
      apply hlower_lt d (hsuffix d hd)
    · intro d hd
      apply (hmem d hd).imp (hupper_lt d) id
    · have hδ := delta_nonneg p
      have hright : (through (pt a) (pt (low p q))).eval (pt (low p q)).1 = (pt (low p q)).2 := by
        apply through_right
        apply ne_of_lt
        apply Int.cast_lt.mpr ha
      change (through (pt a) (pt (low p q))).eval (pt (low p q)).1 ≤ _
      rw [hright]
      apply Int.cast_le.mpr
      simp only [low, up]
      omega
  · have hcond : ¬ s.lower.d * ((low p q).y - s.sc.y) > ((low p q).x - s.sc.x) * s.lower.n := by
      intro hcond
      rw [h.lower] at hcond
      apply hlt ((line_lt_iff h.sa_lt (low p q)).mpr hcond)
    have hxq : (x : ℚ) ≤ (pt (low p q)).1 := Int.cast_le.mpr hx.le
    refine ⟨s, if_neg hcond, .refl s, ?_, h.sa_lt, h.lower, h.headLower, rfl, rfl, rfl, rfl,
      hlower_lt, fun a ha => .inl (hupper_lt a ha), hlo.le⟩
    apply h.bracket.keep hxq (not_lt.mp hlt)

/-- What `updateUpper` does with the part of the chain that the loop finds. -/
theorem updateUpper_eq {q b : Dot} {l : List Dot}
    (hlt : (up p q).y < (through (pt s.sb) (pt s.sd)).eval q.x) (hsb : s.sb.x < s.sd.x)
    (hupper : s.upper = getSlope s.sb s.sd)
    (hmin : Builder.minFrom (up p q) ⟨10000, 1⟩ none s.cvxUpper = some (b :: l)) :
  s.updateUpper p q = .ok { s with
    sb := b
    sd := up p q
    cvxUpper := b :: l
    upper := getSlope b (up p q)
    cvxLower := Builder.pushBack (-1) (up p q) s.cvxLower }
  := by
  have hlt' := (lt_line_iff hsb (up p q)).mp hlt
  rw [← hupper] at hlt'
  refine Eq.trans (if_pos hlt') ?_
  rw [up] at hmin
  rw [hmin]
  rfl

/-- The slope from `sb` to a point below the line with the largest slope. -/
theorem getSlope_lt_upper {q : Dot} (hsb : s.sb.x < s.sd.x) (hq : s.sb.x < q.x)
    (hupper : s.upper = getSlope s.sb s.sd) (hlt : s.upper.n < 10000 * s.upper.d)
    (hbelow : q.y ≤ (through (pt s.sb) (pt s.sd)).eval q.x) :
  q.y - s.sb.y < (q.x - s.sb.x) * 10000
  := by
  have hd : (0 : ℚ) < s.sd.x - s.sb.x := by
    rw [sub_pos]
    exact_mod_cast hsb
  have hq' : (0 : ℚ) < q.x - s.sb.x := by
    rw [sub_pos]
    exact_mod_cast hq
  have hslope : (through (pt s.sb) (pt s.sd)).slope < 10000 := by
    rw [through_slope, ← hupper, div_lt_iff₀]
    · exact_mod_cast hlt
    · rw [hupper]
      simp only [getSlope]
      push_cast
      apply hd
  have heval : (through (pt s.sb) (pt s.sd)).eval q.x
      = s.sb.y + (through (pt s.sb) (pt s.sd)).slope * (q.x - s.sb.x) := eval_at _ _ _
  rw [heval] at hbelow
  have hmul := mul_lt_mul_of_pos_right hslope hq'
  have hlt' : ((q.y - s.sb.y : ℤ) : ℚ) < (((q.x - s.sb.x) * 10000 : ℤ) : ℚ) := by
    push_cast
    linarith
  apply Int.cast_lt.mp hlt'

theorem ups_append (ms : List Dot) (q : Dot) :
  ups p (ms ++ [q]) = pt (up p q) :: ups p ms
  := by
  unfold ups
  rw [List.reverse_append]
  rfl

theorem lows_append (ms : List Dot) (q : Dot) :
  lows p (ms ++ [q]) = pt (low p q) :: lows p ms
  := by
  unfold lows
  rw [List.reverse_append]
  rfl

namespace Raised

variable {q : Dot} {s₀ : Builder}

/-- The upper line is still the one of the segment before the new point. -/
theorem upper_line (hr : Raised (p := p) ms q s₀ s) (h : Extreme p ms x s₀) :
  s.sb.x < s.sd.x ∧ s.upper = getSlope s.sb s.sd ∧ s.upper.n < 10000 * s.upper.d ∧
    s.cvxUpper.head? = some s.sb
  := by
  rw [hr.headUpper, hr.upper, hr.sb, hr.sd]
  use h.sb_lt, h.upper, h.upper_lt, h.headUpper

theorem sb_lt_point (hr : Raised (p := p) ms q s₀ s) (h : Extreme p ms x s₀) (hx : x < q.x) :
  s.sb.x < q.x
  := by
  rw [hr.sb]
  apply (h.chains_lt hx).2
  apply List.mem_of_head? h.headUpper

/-- The loop over `cvx_upper` finds the part of the chain whose first point gives the least slope,
and the line through this point is the upper one for the new upper bound. -/
theorem minFrom_found (hr : Raised (p := p) ms q s₀ s) (h : Extreme p ms x s₀) (hx : x < q.x)
    (hlt : (up p q).y < (through (pt s.sb) (pt s.sd)).eval q.x) :
  ∃ b t, Builder.minFrom (up p q) ⟨10000, 1⟩ none s.cvxUpper = some (b :: t) ∧ b.x < q.x ∧
    Bracket (ups p (ms ++ [q])) (lows p (ms ++ [q]))
      ((Builder.pushBack (-1) (up p q) s.cvxLower).map pt) ((b :: t).map pt)
      (through (pt s.sa) (pt s.sc)) (through (pt b) (pt (up p q))) q.x
  := by
  obtain ⟨hsb, hupper, hupper_lt, hhead⟩ := hr.upper_line h
  have hsbx := hr.sb_lt_point h hx
  have hfirst : (getSlope s.sb (up p q)).lt ⟨10000, 1⟩ = true := by
    have hslope := getSlope_lt_upper (q := up p q) hsb hsbx hupper hupper_lt hlt.le
    rw [Slope.lt, decide_eq_true_eq]
    simp only [getSlope]
    omega
  obtain ⟨l, hl⟩ := List.head?_eq_some_iff.mp hhead
  obtain ⟨r, hmin, hrt⟩ := minFrom_eq (up p q) l s.sb
  rw [← hl] at hrt
  have hmap : ∀ l : List Dot, (l.map fun r => mirror (pt r)) = (l.map pt).map mirror := by
    intro l
    rw [List.map_map]
    rfl
  obtain ⟨b, t, hbt, hb, hbr⟩ := hr.bracket.lower (P := pt (up p q)) le_rfl hlt hr.below
    (by
      intro z hz
      obtain ⟨d, hd, rfl⟩ := List.mem_map.mp hz
      apply (hr.upper_le d hd).imp Int.cast_lt.mpr
      rintro rfl
      have hδ := delta_nonneg p
      refine ⟨rfl, Int.cast_le.mpr ?_⟩
      simp only [low, up]
      omega)
    (by
      intro z hz
      rw [hl] at hz
      cases hz
      exact Int.cast_lt.mpr hsbx)
    (by simp [hl])
    (by
      intro z hz
      obtain ⟨d, hd, rfl⟩ := List.mem_map.mp hz
      exact Int.cast_lt.mpr (hr.lower_lt d hd))
  have hchain : r.map pt = b :: t := by
    rw [hmap, hmap, hbt] at hrt
    have := congrArg (List.map mirror) hrt
    rwa [map_mirror_mirror, map_mirror_mirror] at this
  obtain ⟨b', t', rfl, rfl, rfl⟩ := List.map_eq_cons_iff.mp hchain
  refine ⟨b', t', ?_, Int.cast_lt.mp hb, ?_⟩
  · rw [hl, Builder.minFrom, if_pos hfirst]
    apply hmin
  · rw [ups_append, lows_append, pushBack_lower]
    apply hbr

/-- The new upper slope is not larger than that from `sb`, which the new line keeps above. -/
theorem upper_lt_of_keeps (hr : Raised (p := p) ms q s₀ s) (h : Extreme p ms x s₀) (hx : x < q.x)
    (hlt : (up p q).y < (through (pt s.sb) (pt s.sd)).eval q.x) {b : Dot} (hb : b.x < q.x)
    (hge : (pt s.sb).2 ≤ (through (pt b) (pt (up p q))).eval (pt s.sb).1) :
  (getSlope b (up p q)).n < 10000 * (getSlope b (up p q)).d
  := by
  obtain ⟨hsb, hupper, hupper_lt, -⟩ := hr.upper_line h
  have hsbx := hr.sb_lt_point h hx
  have hd : (0 : ℚ) < (getSlope b (up p q)).d := Int.cast_pos.mpr (sub_pos.mpr hb)
  have hq : (0 : ℚ) < (up p q).x - s.sb.x := by
    rw [sub_pos]
    apply Int.cast_lt.mpr hsbx
  have heval : (through (pt b) (pt (up p q))).eval (pt s.sb).1
      = (up p q).y - (through (pt b) (pt (up p q))).slope * ((up p q).x - s.sb.x) := by
    have hne : (pt b).1 ≠ (pt (up p q)).1 := ne_of_lt (Int.cast_lt.mpr hb)
    have hright := through_right hne
    unfold Affine.eval at hright ⊢
    simp only [pt] at hright ⊢
    linarith
  rw [heval, through_slope] at hge
  have hcast : (((up p q).y - s.sb.y : ℤ) : ℚ) < ((((up p q).x - s.sb.x) * 10000 : ℤ) : ℚ)
    := Int.cast_lt.mpr (getSlope_lt_upper (q := up p q) hsb hsbx hupper hupper_lt hlt.le)
  push_cast at hcast
  have hslope : ((getSlope b (up p q)).n : ℚ) / (getSlope b (up p q)).d < 10000 := by
    by_contra hnot
    have hmul := mul_le_mul_of_nonneg_right (not_lt.mp hnot) hq.le
    simp only [pt] at hge
    linarith
  rw [div_lt_iff₀ hd] at hslope
  exact_mod_cast hslope

end Raised

/-- The extreme lines after both bounds of a new point. -/
theorem updateUpper_extreme {q : Dot} {s₀ : Builder} (h : Extreme p ms x s₀)
    (hr : Raised (p := p) ms q s₀ s) (hx : x < q.x) :
  ∃ s', s.updateUpper p q = .ok s' ∧ SameStore s s' ∧ Extreme p (ms ++ [q]) q.x s'
  := by
  obtain ⟨hsb, hupper, hupper_lt, hhead⟩ := hr.upper_line h
  by_cases hlt : (up p q).y < (through (pt s.sb) (pt s.sd)).eval q.x
  · obtain ⟨b, t, hmin, hb, hbr⟩ := hr.minFrom_found h hx hlt
    have hne : s.cvxLower ≠ [] := by
      intro hnil
      have hhead := hr.headLower
      rw [hnil] at hhead
      cases hhead
    obtain ⟨hheadLower, -⟩ := pushBack_initial (up p q) (-1) hne
    have hge := hbr.hi_keeps.ge (pt s.sb) (by
      rw [lows_append]
      apply hr.bracket.cu_sub
      apply List.mem_map_of_mem (List.mem_of_head? hhead))
    refine ⟨_, updateUpper_eq hlt hsb hupper hmin, ⟨rfl, rfl, rfl, rfl, rfl⟩, ?_⟩
    exact {
      bracket := hbr, sa_lt := hr.sa_lt, sb_lt := hb, lower := hr.lower
      upper := rfl, headLower := hheadLower.trans hr.headLower, headUpper := rfl
      upper_lt := hr.upper_lt_of_keeps h hx hlt hb hge }
  · have hcond : ¬ s.upper.d * ((up p q).y - s.sd.y) < ((up p q).x - s.sd.x) * s.upper.n := by
      intro hcond
      rw [hupper] at hcond
      apply hlt ((lt_line_iff hsb (up p q)).mpr hcond)
    use s, if_neg hcond, .refl s
    refine {
      bracket := ?_, sa_lt := hr.sa_lt, sb_lt := hsb, lower := hr.lower, upper := hupper
      headLower := hr.headLower, headUpper := hhead, upper_lt := hupper_lt }
    rw [ups_append, lows_append]
    apply hr.bracket.keepUp le_rfl (not_lt.mp hlt)

end Extreme

end Plr

end AppL
