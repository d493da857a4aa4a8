import AppL.Plr.ErrorBound

/-!
# Feasible segments

The search for a quantized slope finds one whenever there is one.  While a segment has at
least two points, its extreme lines have the least and the largest slope of the lines that come
within `delta` of all points, every slope between them is that of such a line, and the line
that is pushed for the segment is one of them.
-/

namespace AppL

open Transition Hull

namespace Plr

variable (p : Param)

/-! ### The search for a slope -/

section Search

variable {p} {lower upper : Slope}

/-- The number of a slope. -/
def Slope.value (s : Slope) : ℚ := s.n / s.d

theorem value_lt_iff (hd : 0 < lower.d) {k : ℤ} :
  lower.value < k / p.bit ↔ lower.n * p.bit < k * lower.d
  := by
  have hbit : (0 : ℚ) < p.bit := by exact_mod_cast bit_pos p
  have hd' : (0 : ℚ) < lower.d := by exact_mod_cast hd
  rw [Slope.value, div_lt_div_iff₀ hd' hbit]
  norm_cast

theorem lt_value_iff (hd : 0 < upper.d) {k : ℤ} :
  k / p.bit < upper.value ↔ k * upper.d < upper.n * p.bit
  := by
  have hbit : (0 : ℚ) < p.bit := by exact_mod_cast bit_pos p
  have hd' : (0 : ℚ) < upper.d := by exact_mod_cast hd
  rw [Slope.value, div_lt_div_iff₀ hbit hd']
  norm_cast

/-- Between two neighbours there is no slope. -/
theorem slope_between (hlower : 0 < lower.d) (hupper : 0 < upper.d) {lo hi : ℤ} (hgap : hi - lo = 1)
    (hlo : lo * lower.d ≤ lower.n * p.bit)
    (hhi : hi = p.bit ∨ upper.n * p.bit ≤ hi * upper.d) {j : ℤ} (hj : j < p.bit)
    (hlj : lower.n * p.bit < j * lower.d) :
  upper.n * p.bit ≤ j * upper.d
  := by
  have hlt : lo < j := lt_of_mul_lt_mul_right (hlo.trans_lt hlj) hlower.le
  rcases hhi with rfl | hhi
  · omega
  · apply hhi.trans (mul_le_mul_of_nonneg_right (by omega) hupper.le)

/-- The search misses no slope: those up to `lo` are too small, and those from `hi` on are too
large or have too many bits. -/
theorem slopeSearch_complete (hlower : 0 < lower.d) (hupper : 0 < upper.d) {fuel : ℕ} :
  ∀ {lo hi : ℤ}, 0 ≤ lo → lo < hi → lo * lower.d ≤ lower.n * p.bit →
    (hi = p.bit ∨ upper.n * p.bit ≤ hi * upper.d) →
    slopeSearch p lower upper fuel lo hi = .ok (-1) →
    ∀ j : ℤ, j < p.bit → lower.n * p.bit < j * lower.d → upper.n * p.bit ≤ j * upper.d
  := by
  induction fuel with
  | zero =>
      intro lo hi _ _ hlo hhi hs j hj hlj
      unfold slopeSearch at hs
      split at hs
      · rename_i hgap
        apply slope_between hlower hupper hgap hlo hhi hj hlj
      · cases hs
  | succ fuel ih =>
      intro lo hi hpos hlt hlo hhi hs j hj hlj
      unfold slopeSearch at hs
      split at hs
      · rename_i hgap
        apply slope_between hlower hupper hgap hlo hhi hj hlj
      · rename_i hgap
        dsimp only at hs
        split at hs
        · rename_i hup
          apply ih hpos (by omega) hlo (.inr hup) hs j hj hlj
        · split at hs
          · rename_i hlow
            apply ih (by omega) (by omega) hlow hhi hs j hj hlj
          · have hmid := Except.ok.inj hs
            omega

/-- The search ends, and finds a slope of `slope_bit` bits between the two slopes if there is
one. -/
theorem existQuantizedSlope_exact (p : Param) {lower upper : Slope} (hlower : 0 < lower.d)
    (hupper : 0 < upper.d) :
  ∃ k : ℤ, existQuantizedSlope p lower upper = .ok k
    ∧ (k ≠ -1 → 0 ≤ k ∧ k < p.bit ∧ lower.value < k / p.bit ∧ k / p.bit < upper.value)
    ∧ (k = -1 → ∀ j : ℤ, 0 ≤ j → j < p.bit →
        ¬ (lower.value < j / p.bit ∧ j / p.bit < upper.value))
  := by
  have hbit := bit_pos p
  obtain ⟨k, hk⟩ := existQuantizedSlope_ok p lower upper
  refine ⟨k, hk, ?_, ?_⟩
  · intro hne
    obtain ⟨h₀, h₁, h₂, h₃⟩ := existQuantizedSlope_spec hk hne
    use h₀, h₁, (value_lt_iff hlower).mpr h₂, (lt_value_iff hupper).mpr h₃
  · rintro rfl j hj₀ hj ⟨hlj, hju⟩
    rw [value_lt_iff hlower] at hlj
    rw [lt_value_iff hupper] at hju
    unfold existQuantizedSlope at hk
    split at hk
    · rename_i hup
      have h₁ := mul_nonneg hj₀ hupper.le
      have h₂ := mul_nonpos_of_nonpos_of_nonneg hup hbit.le
      omega
    · split at hk
      · cases hk
      · rename_i hlow
        split at hk
        · rename_i hone
          have h₁ := mul_le_mul_of_nonneg_left (show j ≤ p.bit - 1 by omega) hlower.le
          rw [mul_comm lower.d j] at h₁
          omega
        · have h₁ := slopeSearch_complete hlower hupper le_rfl hbit
            (by rw [zero_mul]; exact mul_nonneg (not_lt.mp hlow) hbit.le) (.inl rfl) hk j hj hlj
          omega

/-- There is a slope of seven bits between `-1 / 60` and `1 / 60`, and none between `1 / 200`
and `1 / 150`. -/
theorem existQuantizedSlope_exact_narrow :
  (∃ k : ℤ, existQuantizedSlope largeRange ⟨-1, 60⟩ ⟨1, 60⟩ = .ok k ∧ 0 ≤ k)
    ∧ ∀ j : ℤ, 0 ≤ j → j < largeRange.bit →
      ¬ (Slope.value ⟨1, 200⟩ < j / largeRange.bit ∧ j / largeRange.bit < Slope.value ⟨1, 150⟩)
  := by
  obtain ⟨k, hk, hspec, -⟩ := existQuantizedSlope_exact largeRange
    (by decide : 0 < (Slope.mk (-1) 60).d) (by decide : 0 < (Slope.mk 1 60).d)
  obtain ⟨l, hl, -, hnone⟩ := existQuantizedSlope_exact largeRange
    (by decide : 0 < (Slope.mk 1 200).d) (by decide : 0 < (Slope.mk 1 150).d)
  have hk' : existQuantizedSlope largeRange ⟨-1, 60⟩ ⟨1, 60⟩ = .ok 0 := by decide
  have hl' : existQuantizedSlope largeRange ⟨1, 200⟩ ⟨1, 150⟩ = .ok (-1) := by decide
  rw [hk'] at hk
  rw [hl'] at hl
  cases hk
  cases hl
  use ⟨0, hk', (hspec (by decide)).1⟩, hnone rfl

end Search

/-! ### The open segment -/

/-- An affine function comes within `delta` of points. -/
def Follows (ms : List Dot) (f : Affine ℚ) : Prop :=
  ∀ m ∈ ms, m.y - p.delta ≤ f.eval m.x ∧ f.eval m.x ≤ m.y + p.delta

/-- An affine function with the slope `m` goes through two points, and comes within `delta` of
points. -/
structure Joins (ms : List Dot) (a b : Dot) (m : ℚ) (f : Affine ℚ) : Prop where
  slope : f.slope = m
  left : f.eval a.x = a.y
  right : f.eval b.x = b.y
  follows : Follows p ms f

/-- The extreme lines of the open segment have the least and the largest slope, the slopes
between them are those of lines through their common point, and one of them has `slope_bit`
bits. -/
structure Feasible (s : Builder) : Prop where
  lower_pos : 0 < s.lower.d
  upper_pos : 0 < s.upper.d
  lower_lt : s.lower.lt s.upper = true
  between : ∀ f, Follows p s.member f → s.lower.value ≤ f.slope ∧ f.slope ≤ s.upper.value
  extreme : ∃ f g, Joins p s.member s.sa s.sc s.lower.value f
    ∧ Joins p s.member s.sb s.sd s.upper.value g
    ∧ ∃ x, f.eval x = g.eval x ∧ ∀ m, s.lower.value < m → m < s.upper.value →
      Follows p s.member (.at (x, f.eval x) m)
  slope : ∃ k, existQuantizedSlope p s.lower s.upper = .ok k ∧ k ≠ -1

/-- An insertion pushes no line, or one that comes within `delta` of all points of the open
segment. -/
def Pushed (s s' : Builder) : Prop :=
  s'.store = s.store ∨ ∃ (o : Dot) (a b : ℤ), s.member.head? = some o
    ∧ s.store.linePushBack p o.x o.y a b = .ok s'.store
    ∧ ∀ m ∈ s.member, (m.y - p.delta) * p.bit ≤ o.y * p.bit + (m.x - o.x) * a + b
      ∧ o.y * p.bit + (m.x - o.x) * a + b ≤ (m.y + p.delta) * p.bit

section Feasible

variable {p} {ms : List Dot} {x : ℤ} {s s' : Builder}

theorem follows_iff {f : Affine ℚ} :
  Follows p ms f ↔ Keeps (ups p ms) (lows p ms) f
  := by
  constructor
  · intro h
    constructor
    · intro q hq
      obtain ⟨m, hm, rfl⟩ := List.mem_map.mp hq
      have hle := (h m (List.mem_reverse.mp hm)).2
      simp only [pt, up]
      push_cast
      apply hle
    · intro q hq
      obtain ⟨m, hm, rfl⟩ := List.mem_map.mp hq
      have hge := (h m (List.mem_reverse.mp hm)).1
      simp only [pt, low]
      push_cast
      apply hge
  · intro h m hm
    have hle := h.le (pt (up p m)) (List.mem_map_of_mem (List.mem_reverse.mpr hm))
    have hge := h.ge (pt (low p m)) (List.mem_map_of_mem (List.mem_reverse.mpr hm))
    simp only [pt, up, low] at hle hge
    push_cast at hle hge
    use hge, hle

/-- The slope of an extreme line. -/
theorem through_value (a b : Dot) :
  (through (pt a) (pt b)).slope = (getSlope a b).value
  := through_slope a b

/-- The points of an extreme line. -/
theorem joins_through {a b : Dot} (hab : a.x < b.x)
    (h : Keeps (ups p ms) (lows p ms) (through (pt a) (pt b))) :
  Joins p ms a b (getSlope a b).value (through (pt a) (pt b))
  where
    slope := through_value a b
    left := through_left (pt a) (pt b)
    right := through_right (p := pt a) (q := pt b) (Int.cast_lt.mpr hab).ne
    follows := follows_iff.mpr h

/-- The extreme lines of a segment are those of its members. -/
theorem Extreme.feasible (h : Extreme p s.member x s) {k : ℤ}
    (hk : existQuantizedSlope p s.lower s.upper = .ok k) (hne : k ≠ -1) :
  Feasible p s
  := by
  have hlower : 0 < s.lower.d := by
    rw [h.lower]
    apply sub_pos.mpr h.sa_lt
  have hupper : 0 < s.upper.d := by
    rw [h.upper]
    apply sub_pos.mpr h.sb_lt
  obtain ⟨-, -, hlk, hku⟩ := existQuantizedSlope_spec hk hne
  have hlt : s.lower.value < s.upper.value
    := ((value_lt_iff hlower).mpr hlk).trans ((lt_value_iff hupper).mpr hku)
  have hlo := joins_through h.sa_lt h.bracket.lo_keeps
  have hhi := joins_through h.sb_lt h.bracket.hi_keeps
  rw [← h.lower] at hlo
  rw [← h.upper] at hhi
  refine ⟨hlower, hupper, ?_, ?_, ?_, k, hk, hne⟩
  · rw [Slope.value, Slope.value, div_lt_div_iff₀ (by exact_mod_cast hlower)
      (by exact_mod_cast hupper), mul_comm (s.upper.n : ℚ)] at hlt
    rw [Slope.lt, decide_eq_true_eq]
    exact_mod_cast hlt
  · intro f hf
    have hright := h.bracket.right f (follows_iff.mp hf)
    rw [← hlo.slope, ← hhi.slope]
    constructor
    · apply slope_le_of_right fun z hz => (hright z hz).1
    · apply slope_le_of_right fun z hz => (hright z hz).2
  · obtain ⟨z, hz⟩ := exists_eval_eq (hlo.slope.trans_lt (hlt.trans_eq hhi.slope.symm))
    refine ⟨_, _, hlo, hhi, z, hz, ?_⟩
    intro m hm hm'
    rw [← hlo.slope] at hm
    rw [← hhi.slope] at hm'
    apply follows_iff.mpr (h.bracket.lo_keeps.pencil h.bracket.hi_keeps hm hm' rfl hz.symm)

/-! ### The lines of an insertion -/

theorem updateLower_store {q : Dot} (h : s.updateLower p q = .ok s') :
  s'.store = s.store
  := by
  unfold Builder.updateLower at h
  dsimp only at h
  split at h
  · split at h
    · cases h
      rfl
    · cases h
  · cases h
    rfl

theorem updateUpper_store {q : Dot} (h : s.updateUpper p q = .ok s') :
  s'.store = s.store
  := by
  unfold Builder.updateUpper at h
  dsimp only at h
  split at h
  · split at h
    · cases h
      rfl
    · cases h
  · cases h
    rfl

theorem closeSegment_store {o q : Dot} {a b : ℤ} (h : s.closeSegment p o q a b = .ok s') :
  s.store.linePushBack p o.x o.y (int32 a) (int32 b) = .ok s'.store
  := by
  obtain ⟨store, hpush, hs⟩ := bind_eq_ok.mp h
  cases hs
  apply hpush

/-- A further point of a segment: no line is pushed, or that of the slope and the intercept
that have been computed. -/
theorem insertMore_store {o q : Dot} (h : s.insertMore p o q = .ok s') :
  s'.store = s.store ∨ ∃ a b, existQuantizedSlope p s.lower s.upper = .ok a
    ∧ s.findInterceptO1 p o a = .ok b
    ∧ s.store.linePushBack p o.x o.y (int32 a) (int32 b) = .ok s'.store
  := by
  obtain ⟨a, ha, h⟩ := bind_eq_ok.mp h
  obtain ⟨b, hb, h⟩ := bind_eq_ok.mp h
  split at h
  · right
    use a, b, ha, hb, closeSegment_store h
  · obtain ⟨s₁, h₁, h⟩ := bind_eq_ok.mp h
    obtain ⟨s₂, h₂, h⟩ := bind_eq_ok.mp h
    obtain ⟨a', -, h⟩ := bind_eq_ok.mp h
    have hstore : s₂.store = s.store := (updateUpper_store h₂).trans (updateLower_store h₁)
    split at h
    · right
      use a, b, ha, hb
      rw [← hstore]
      apply closeSegment_store h
    · cases h
      left
      apply hstore

/-- The line of a segment comes within `delta` of its points, and its slope and its intercept
are those of an `int32_t`. -/
theorem insertMore_pushed {o q : Dot} {l : List Dot} (hmember : s.member = o :: l)
    (h : Extreme p s.member x s) {k : ℤ} (hk : existQuantizedSlope p s.lower s.upper = .ok k)
    (hne : k ≠ -1) (hs : s.insertMore p o q = .ok s') :
  Pushed p s s'
  := by
  obtain hstore | ⟨a, b, ha, hb, hpush⟩ := insertMore_store hs
  · left
    apply hstore
  · right
    obtain rfl : k = a := Except.ok.inj (hk.symm.trans ha)
    obtain ⟨ha₀, ha₁, ha₂, ha₃⟩ := existQuantizedSlope_spec hk hne
    have ho : o ∈ s.member := by
      rw [hmember]
      apply List.mem_cons_self
    obtain ⟨b', hb', hnear⟩ := findInterceptO1_near h ha₂ ha₃ ho
    obtain rfl : b' = b := Except.ok.inj (hb'.symm.trans hb)
    obtain ⟨-, hδ⟩ := delta_lt p
    have hbit := bit_lt p
    obtain ⟨hlo, hhi⟩ := hnear o ho
    rw [sub_self, zero_mul, add_zero, sub_mul] at hlo
    rw [sub_self, zero_mul, add_zero, add_mul] at hhi
    have hinta : int32 k = k := int32_eq (by omega) (by omega)
    have hintb : int32 b' = b' := int32_eq (by linarith) (by linarith)
    rw [hinta, hintb] at hpush
    refine ⟨o, k, b', ?_, hpush, hnear⟩
    rw [hmember]
    rfl

/-- The same for an insertion, which first sets the counters of addresses and pages. -/
theorem insert_pushed {lba ppa : ℤ} (hlen : 2 ≤ s.member.length) (h : Extreme p s.member x s)
    {k : ℤ} (hk : existQuantizedSlope p s.lower s.upper = .ok k) (hne : k ≠ -1)
    (hs : s.insert p lba ppa = .ok s') :
  Pushed p s s'
  := by
  obtain ⟨-, -, hs⟩ := bind_eq_ok.mp hs
  generalize hs₁ : ({ s with
    ppaMin := min ppa s.ppaMin
    ppaMax := max ppa s.ppaMax
    lbaPrev := lba } : Builder) = s₁ at hs
  have hext : Extreme p s₁.member x s₁ := by
    rw [← hs₁]
    use h.bracket, h.sa_lt, h.sb_lt, h.lower, h.upper, h.headLower, h.headUpper, h.upper_lt
  have hslope : existQuantizedSlope p s₁.lower s₁.upper = .ok k := by
    rw [← hs₁]
    apply hk
  have hpushed : Pushed p s₁ s' := by
    dsimp only at hs
    split at hs
    · rename_i hmember
      rw [← hs₁] at hmember
      rw [hmember] at hlen
      exact absurd hlen (by decide)
    · rename_i hmember
      rw [← hs₁] at hmember
      rw [hmember] at hlen
      exact absurd hlen (Nat.not_succ_le_self 1)
    · rename_i hmember
      apply insertMore_pushed hmember hext hslope hne hs
  rw [← hs₁] at hpushed
  apply hpushed

/-- The open segment of a state that has been reached by insertions. -/
theorem Inserted.feasible {pairs : List (ℤ × ℤ)} (h : Inserted (p := p) pairs s)
    (hlen : 2 ≤ s.member.length) :
  Feasible p s ∧ ∀ lba ppa s', s.insert p lba ppa = .ok s' → Pushed p s s'
  := by
  obtain ⟨⟨lines, done, cur, -, hshape⟩, -⟩ := h
  have hmember := hshape.member
  have hlen' := hlen
  rw [hmember, List.length_map] at hlen'
  cases hshape.opened with
  | none => exact absurd hlen' (by decide)
  | one => exact absurd hlen' (Nat.not_succ_le_self 1)
  | more mem ext slope ne =>
      rw [← hmember] at ext
      use ext.feasible slope ne
      intro lba ppa s' hs
      apply insert_pushed hlen ext slope ne hs

/-- Pairs are inserted in the order of their addresses.  Whenever the open segment has two
points it is feasible, and every line that is pushed for it comes within `delta` of all its
points. -/
theorem insertAll_feasible (p : Param) (u : Unset) (pairs : List (ℤ × ℤ)) (hrange : p.range < 2400)
    (hfits : ∀ q ∈ pairs, Fits q) (hpair : pairs.Pairwise Earlier) :
  ∃ s, (Builder.new u).insertAll p pairs = .ok s
    ∧ (2 ≤ s.member.length →
      Feasible p s ∧ ∀ lba ppa s', s.insert p lba ppa = .ok s' → Pushed p s s')
  := by
  obtain ⟨s, hs, hins⟩ := insertAll_inserted pairs hrange (inserted_new (p := p) u) hfits hpair
  rw [List.nil_append] at hins
  use s, hs, hins.feasible

theorem insertAll_feasible_threePairs :
  ∃ s, (Builder.new ⟨⟨0, 0⟩, ⟨0, 0⟩, ⟨0, 0⟩, ⟨0, 0⟩, ⟨0, 0⟩, ⟨0, 0⟩⟩).insertAll largeRange
      [(0, 0), (1, 0), (2, 1)] = .ok s
    ∧ s.member.length = 3 ∧ Feasible largeRange s
  := by
  have hfits : ∀ q ∈ [((0 : ℤ), (0 : ℤ)), (1, 0), (2, 1)], Fits q := by
    intro q hq
    simp only [List.mem_cons, List.not_mem_nil, or_false] at hq
    rcases hq with rfl | rfl | rfl
    all_goals exact ⟨by decide, by decide, by decide, by decide⟩
  obtain ⟨s, hs, hfeasible⟩ := insertAll_feasible largeRange
    ⟨⟨0, 0⟩, ⟨0, 0⟩, ⟨0, 0⟩, ⟨0, 0⟩, ⟨0, 0⟩, ⟨0, 0⟩⟩ [(0, 0), (1, 0), (2, 1)]
    (by decide) hfits (by simp [Earlier])
  have hmember : ((Builder.new ⟨⟨0, 0⟩, ⟨0, 0⟩, ⟨0, 0⟩, ⟨0, 0⟩, ⟨0, 0⟩, ⟨0, 0⟩⟩).insertAll largeRange
      [(0, 0), (1, 0), (2, 1)]).map (fun s => s.member.length) = .ok 3 := by
    decide +kernel
  rw [hs] at hmember
  have hlen : s.member.length = 3 := Except.ok.inj hmember
  exact ⟨s, hs, hlen, (hfeasible (by omega)).1⟩

end Feasible

end Plr

end AppL
