import AppL.Plr.RoundTrip
import AppL.Plr.Segment

/-!
# The error of a lookup

The lines of the closed segments come within `delta` of the pairs that have been inserted, so
that a lookup is at most one page away from the page of its address.  The last segment is
closed by `insert_end`, which uses the extreme lines of the segment: they are set when it has
two pairs.
-/

namespace AppL

open Transition Hull

namespace Plr

variable (p : Param)

/-- The point of a pair. -/
def dot (q : ℤ × ℤ) : Dot := ⟨q.1 * correction, q.2 * tick + tick / 2⟩

/-- A pair comes before another. -/
def Earlier (q r : ℤ × ℤ) : Prop := q.1 < r.1 ∧ q.2 ≤ r.2

/-- The addresses and pages are those of an `int32_t`, and not negative. -/
structure Fits (q : ℤ × ℤ) : Prop where
  lba_ge : 0 ≤ q.1
  lba_lt : q.1 < 2 ^ 31
  ppa_ge : 0 ≤ q.2
  ppa_lt : q.2 < 2 ^ 31

/-- The points that are made from the pairs of a block, which has far fewer than `80000` pages, are
small enough for the conversion in `ccw`. -/
theorem Fits.small {q : ℤ × ℤ} (h : Fits q) (hppa : q.2 < 80000) (hrange : p.range ≤ 190) :
  (0 ≤ (dot q).x ∧ (dot q).x < 2 ^ 37) ∧ |(dot q).y + p.delta| < 2 ^ 24 ∧
    |(dot q).y - p.delta| < 2 ^ 24
  := by
  obtain ⟨hlba, hlt, hpage, -⟩ := h
  rw [abs_lt, abs_lt]
  simp only [dot, correction, tick, Param.delta]
  omega

/-- The value that a line gives for an address, `bit` times. -/
def Line.value (l : Line) (lba : ℤ) : ℤ :=
  (l.y * tick + tick / 2) * p.bit + (lba * correction - l.x * correction) * l.a + l.b

/-- A line that comes within `delta` of a pair. -/
def Near (l : Line) (q : ℤ × ℤ) : Prop :=
  ((dot q).y - p.delta) * p.bit ≤ l.value p q.1 ∧ l.value p q.1 ≤ ((dot q).y + p.delta) * p.bit

/-- The last line that does not begin after an address. -/
def LastLine (lines : List Line) (lba : ℤ) (l : Line) : Prop :=
  ∃ i : ℕ, lines[i]? = some l ∧ l.x ≤ lba ∧ ∀ (j : ℕ) (l' : Line), i < j → lines[j]? = some l' → lba < l'.x

section Lines

variable {p} {lines : List Line} {l l' : Line} {lba : ℤ}

theorem LastLine.unique (h : LastLine lines lba l) (h' : LastLine lines lba l') :
  l = l'
  := by
  obtain ⟨i, hi, hx, hlast⟩ := h
  obtain ⟨j, hj, hx', hlast'⟩ := h'
  rcases lt_trichotomy i j with hij | rfl | hij
  · have := hlast j l' hij hj
    omega
  · rw [hi] at hj
    apply Option.some.inj hj
  · have := hlast' i l hij hi
    omega

theorem LastLine.append (h : LastLine lines lba l) (hlt : lba < l'.x) :
  LastLine (lines ++ [l']) lba l
  := by
  obtain ⟨i, hi, hx, hlast⟩ := h
  have hlen := (List.getElem?_eq_some_iff.mp hi).1
  refine ⟨i, by rw [List.getElem?_append_left hlen]; exact hi, hx, ?_⟩
  intro j l'' hij hj
  rcases Nat.lt_or_ge j lines.length with hjl | hjl
  · rw [List.getElem?_append_left hjl] at hj
    apply hlast j l'' hij hj
  · have hmem := List.mem_of_getElem? (l := [l']) (by rw [← List.getElem?_append_right hjl]; exact hj)
    rw [List.mem_singleton.mp hmem]
    apply hlt

theorem lastLine_append (h : l.x ≤ lba) :
  LastLine (lines ++ [l]) lba l
  := by
  refine ⟨lines.length, List.getElem?_concat_length, h, ?_⟩
  intro j l' hj hl'
  have hlen := (List.getElem?_eq_some_iff.mp hl').1
  rw [List.length_append, List.length_singleton] at hlen
  omega

/-- An intercept that is not larger than `delta` fits its field. -/
theorem delta_lt (p : Param) :
  p.delta * p.bit < 2 ^ (p.bBit - 1) ∧ p.delta * p.bit < 2 ^ 31
  := by
  have hwidth := p.width
  have hlog : 100 + p.range < 2 ^ ((100 + p.range).log2 + 1) := Nat.lt_log2_self
  have hδ : p.delta < 2 ^ ((100 + p.range).log2 + 1) := by
    have : p.delta = ((100 + p.range : ℕ) : ℤ) := by
      unfold Param.delta tick
      push_cast
      omega
    rw [this]
    exact_mod_cast hlog
  have hmul : p.delta * p.bit < 2 ^ ((100 + p.range).log2 + 1) * 2 ^ p.aBit
    := mul_lt_mul_of_pos_right hδ (bit_pos p)
  rw [← pow_add] at hmul
  constructor
  · apply lt_of_lt_of_le hmul
    apply pow_le_pow_right₀ (by norm_num)
    unfold Param.bBit Param.aBit
    omega
  · apply lt_of_lt_of_le hmul
    apply pow_le_pow_right₀ (by norm_num)
    unfold Param.aBit
    omega

end Lines

/-- The line without a slope of a single pair. -/
theorem near_flat {p : Param} (q : ℤ × ℤ) :
  Near p ⟨q.1, q.2, 0, 0⟩ q
  := by
  have hmul := mul_nonneg (delta_nonneg p) (bit_pos p).le
  simp only [Near, Line.value, dot]
  rw [sub_mul, add_mul (_ + _) p.delta]
  constructor
  · linarith
  · linarith

/-- The closed segments have the pairs `done`. -/
structure Segments (lines : List Line) (done : List (ℤ × ℤ)) (store : LineStore) : Prop where
  stored : Stored p lines store
  valid : ∀ l ∈ lines, l.Valid p
  pairwise : lines.Pairwise Line.Before
  near : ∀ q ∈ done, ∃ l, LastLine lines q.1 l ∧ Near p l q
  starts : ∀ l ∈ lines, ∃ q ∈ done, l.x = q.1 ∧ l.y = q.2

section Segments

variable {p} {lines : List Line} {done cur : List (ℤ × ℤ)} {store : LineStore}
  {q₀ : ℤ × ℤ} {a b : ℤ}

/-- The line of the open segment is pushed. -/
theorem Segments.push (h : Segments p lines done store) (hfits : Fits q₀)
    (ha : 0 ≤ a) (ha' : a < p.bit) (hnear : ∀ q ∈ q₀ :: cur, Near p ⟨q₀.1, q₀.2, a, b⟩ q)
    (hdone : ∀ q ∈ done, Earlier q q₀) (hcur : ∀ q ∈ cur, Earlier q₀ q) :
  ∃ store', store.linePushBack p (dot q₀).x (dot q₀).y (int32 a) (int32 b) = .ok store'
    ∧ Segments p (lines ++ [⟨q₀.1, q₀.2, a, b⟩]) (done ++ q₀ :: cur) store'
  := by
  have hbit := bit_pos p
  obtain ⟨hδ, hδ'⟩ := delta_lt p
  have hb : -(p.delta * p.bit) ≤ b ∧ b ≤ p.delta * p.bit := by
    have h₀ := hnear q₀ List.mem_cons_self
    simp only [Near, Line.value, dot] at h₀
    rw [sub_self, zero_mul, add_zero, sub_mul, add_mul (_ + _) p.delta] at h₀
    constructor
    · linarith
    · linarith
  have hbit' := bit_lt p
  have hinta : int32 a = a := int32_eq (by omega) (by omega)
  have hintb : int32 b = b := int32_eq (by omega) (by omega)
  have hvalid : (⟨q₀.1, q₀.2, a, b⟩ : Line).Valid p := by
    have h₁ := hfits.lba_ge
    have h₂ := hfits.ppa_ge
    exact ⟨by dsimp only; omega, hfits.lba_lt, by dsimp only; omega, hfits.ppa_lt, ha, ha',
      by dsimp only; omega, by dsimp only; omega⟩
  have hbefore : ∀ l ∈ lines, l.Before ⟨q₀.1, q₀.2, a, b⟩ := by
    intro l hl
    obtain ⟨q, hq, hx, hy⟩ := h.starts l hl
    obtain ⟨h₁, h₂⟩ := hdone q hq
    use by rw [hx]; exact h₁, by rw [hy]; exact h₂
  have hlast : ∀ n, lines.length = n + 1 → (lineNo lines n).Before ⟨q₀.1, q₀.2, a, b⟩ := by
    intro n hn
    have hlt : n < lines.length := by omega
    apply hbefore
    unfold lineNo
    rw [List.getElem?_eq_getElem hlt]
    apply List.getElem_mem hlt
  obtain ⟨store', hpush, hstored⟩ := LineStore.pushLine_stored h.stored hvalid hlast
  refine ⟨store', ?_, hstored, ?_, ?_, ?_, ?_⟩
  · rw [hinta, hintb]
    apply hpush
  · intro l hl
    obtain hl | hl := List.mem_append.mp hl
    · apply h.valid l hl
    · rw [List.mem_singleton.mp hl]
      apply hvalid
  · apply List.pairwise_append.mpr
    use h.pairwise, List.pairwise_singleton _ _
    intro l hl l' hl'
    rw [List.mem_singleton.mp hl']
    apply hbefore l hl
  · intro q hq
    obtain hq | hq := List.mem_append.mp hq
    · obtain ⟨l, hl, hn⟩ := h.near q hq
      exact ⟨l, hl.append (hdone q hq).1, hn⟩
    · refine ⟨_, lastLine_append ?_, hnear q hq⟩
      obtain rfl | hq := List.mem_cons.mp hq
      · apply le_rfl
      · apply (hcur q hq).1.le
  · intro l hl
    obtain hl | hl := List.mem_append.mp hl
    · obtain ⟨q, hq, hxy⟩ := h.starts l hl
      exact ⟨q, List.mem_append_left _ hq, hxy⟩
    · rw [List.mem_singleton.mp hl]
      exact ⟨q₀, List.mem_append_right _ List.mem_cons_self, rfl, rfl⟩

end Segments

/-! ### Insertions -/

/-- The fields of the open segment, with its pairs. -/
inductive Opened (s : Builder) : List (ℤ × ℤ) → Prop
  | none : Opened s []
  | one {q : ℤ × ℤ} (sa : s.sa = up p (dot q)) (sb : s.sb = low p (dot q))
      (cvxLower : s.cvxLower = [up p (dot q)]) (cvxUpper : s.cvxUpper = [low p (dot q)]) :
      Opened s [q]
  | more {o m r : ℤ × ℤ} {cur : List (ℤ × ℤ)} {a : ℤ} (mem : r ∈ o :: m :: cur)
      (extreme : Extreme p ((o :: m :: cur).map dot) (dot r).x s)
      (slope : existQuantizedSlope p s.lower s.upper = .ok a) (ne : a ≠ -1) :
      Opened s (o :: m :: cur)

/-- The pairs that have been inserted are those of the closed segments and of the open one. -/
structure Shape (lines : List Line) (done cur : List (ℤ × ℤ)) (s : Builder) : Prop where
  member : s.member = cur.map dot
  segments : Segments p lines done s.store
  opened : Opened p s cur

/-- What an insertion leaves alone after its first assignments. -/
structure SamePages (s s' : Builder) : Prop where
  ppaMin : s'.ppaMin = s.ppaMin
  ppaMax : s'.ppaMax = s.ppaMax
  lbaPrev : s'.lbaPrev = s.lbaPrev

/-- One more pair. -/
def Grown (pairs : List (ℤ × ℤ)) (s s' : Builder) : Prop :=
  (∃ lines done cur, done ++ cur = pairs ∧ Shape p lines done cur s') ∧ SamePages s s'

section Insert

variable {p} {lines : List Line} {done cur : List (ℤ × ℤ)} {s : Builder}

theorem SameStore.samePages {s s' : Builder} (h : SameStore s s') :
  SamePages s s'
  := ⟨h.ppaMin, h.ppaMax, h.lbaPrev⟩

/-- The order of points is that of their pairs. -/
theorem dot_lt {q r : ℤ × ℤ} (h : Earlier q r) :
  (dot q).x < (dot r).x ∧ (dot q).y ≤ (dot r).y
  := by
  obtain ⟨h₁, h₂⟩ := h
  simp only [dot, correction, tick]
  omega

/-- The segment is closed and one with the new pair begins. -/
theorem closeSegment_grown {o q : ℤ × ℤ} {a b : ℤ} (h : Segments p lines done s.store)
    (hfits : Fits o) (ha : 0 ≤ a) (ha' : a < p.bit)
    (hnear : ∀ r ∈ o :: cur, Near p ⟨o.1, o.2, a, b⟩ r) (hdone : ∀ r ∈ done, Earlier r o)
    (hcur : ∀ r ∈ cur, Earlier o r) :
  ∃ s', s.closeSegment p (dot o) (dot q) a b = .ok s'
    ∧ Grown p (done ++ o :: cur ++ [q]) s s'
  := by
  obtain ⟨store', hpush, hseg⟩ := h.push hfits ha ha' hnear hdone hcur
  refine ⟨_, bind_eq_ok.mpr ⟨store', hpush, rfl⟩, ?_, ⟨rfl, rfl, rfl⟩⟩
  exact ⟨_, done ++ o :: cur, [q], rfl, rfl, hseg, .one rfl rfl rfl rfl⟩

/-- The second pair of a segment. -/
theorem insertSecond_grown {o q : ℤ × ℤ} (h : Shape p lines done [o] s) (hrange : p.range < 2400)
    (hfits : Fits o) (hdone : ∀ r ∈ done, Earlier r o) (hoq : Earlier o q) :
  ∃ s', s.insertSecond p (dot o) (dot q) = .ok s' ∧ Grown p (done ++ [o] ++ [q]) s s'
  := by
  have hδ := delta_nonneg p
  obtain ⟨hx, hy⟩ := dot_lt hoq
  obtain ⟨sa, sb, cvxLower, cvxUpper⟩ : s.sa = up p (dot o) ∧ s.sb = low p (dot o)
      ∧ s.cvxLower = [up p (dot o)] ∧ s.cvxUpper = [low p (dot o)] := by
    cases h.opened with
    | one sa sb cvxLower cvxUpper => use sa, sb, cvxLower, cvxUpper
  obtain ⟨a, ha⟩ := existQuantizedSlope_ok p (getSlope s.sa (low p (dot q)))
    (getSlope s.sb (up p (dot q)))
  by_cases hne : a = -1
  · have hnear : ∀ r ∈ [o], Near p ⟨o.1, o.2, 0, 0⟩ r := by
      intro r hr
      rw [List.mem_singleton.mp hr]
      apply near_flat o
    obtain ⟨s', hs', hgrown⟩ := closeSegment_grown (q := q) (s := { s with
        sc := low p (dot q)
        sd := up p (dot q)
        lower := getSlope s.sa (low p (dot q))
        upper := getSlope s.sb (up p (dot q)) })
      h.segments hfits le_rfl (bit_pos p) hnear hdone (by simp)
    refine ⟨s', ?_, hgrown.1, hgrown.2.ppaMin, hgrown.2.ppaMax, hgrown.2.lbaPrev⟩
    refine bind_eq_ok.mpr ⟨a, ha, ?_⟩
    rw [if_pos hne]
    apply hs'
  · refine ⟨_, bind_eq_ok.mpr ⟨a, ha, if_neg hne⟩, ?_, ⟨rfl, rfl, rfl⟩⟩
    refine ⟨lines, done, [o, q], by simp, ?_, h.segments, ?_⟩
    · dsimp only
      rw [h.member]
      rfl
    · refine .more (r := q) (by simp) ?_ ha hne
      have hlower : (getSlope s.sa (low p (dot q))).n < (getSlope s.sa (low p (dot q))).d := by
        apply lower_lt_one ha hne
        rw [sa]
        apply sub_pos.mpr hx
      constructor
      · have hle : ∀ r : Dot, (((low p r).y : ℤ) : ℚ) ≤ (((up p r).y : ℤ) : ℚ) := by
          intro r
          apply Int.cast_le.mpr
          simp only [low, up]
          omega
        dsimp only
        rw [sa, sb, cvxLower, cvxUpper]
        apply Bracket.of_two (Int.cast_lt.mpr hx) (hle (dot o)) (hle (dot q))
      · dsimp only
        rw [sa]
        apply hx
      · dsimp only
        rw [sb]
        apply hx
      · rfl
      · rfl
      · dsimp only
        rw [cvxLower, sa]
        rfl
      · dsimp only
        rw [cvxUpper, sb]
        rfl
      · rw [sa] at hlower
        dsimp only
        rw [sb]
        have hδ' : p.delta < 2500 := by
          unfold Param.delta tick
          omega
        simp only [getSlope, up, low] at hlower ⊢
        omega

/-- A further pair of a segment. -/
theorem insertMore_grown {o m q : ℤ × ℤ} (h : Shape p lines done (o :: m :: cur) s)
    (hrange : p.range < 2400) (hfits : Fits o) (hdone : ∀ r ∈ done, Earlier r o)
    (hcur : ∀ r ∈ m :: cur, Earlier o r) (hq : ∀ r ∈ o :: m :: cur, Earlier r q) :
  ∃ s', s.insertMore p (dot o) (dot q) = .ok s' ∧ Grown p (done ++ o :: m :: cur ++ [q]) s s'
  := by
  obtain ⟨r, a, hr, hext, ha, hne⟩ : ∃ r a, r ∈ o :: m :: cur
      ∧ Extreme p ((o :: m :: cur).map dot) (dot r).x s
      ∧ existQuantizedSlope p s.lower s.upper = .ok a ∧ a ≠ -1 := by
    cases h.opened with
    | more mem extreme slope ne => exact ⟨_, _, mem, extreme, slope, ne⟩
  obtain ⟨ha₀, ha₁, ha₂, ha₃⟩ := existQuantizedSlope_spec ha hne
  obtain ⟨b, hb, hbound⟩ := findInterceptO1_near hext ha₂ ha₃
    (List.mem_map_of_mem (f := dot) (List.mem_cons_self (a := o) (l := m :: cur)))
  have hnear : ∀ r ∈ o :: m :: cur, Near p ⟨o.1, o.2, a, b⟩ r := by
    intro r hr
    apply hbound (dot r) (List.mem_map_of_mem hr)
  have hclose : ∀ s₁, SameStore s s₁ → ∃ s', s₁.closeSegment p (dot o) (dot q) a b = .ok s'
      ∧ Grown p (done ++ o :: m :: cur ++ [q]) s s' := by
    intro s₁ hs₁
    have hseg : Segments p lines done s₁.store := by
      rw [hs₁.store]
      apply h.segments
    obtain ⟨s', hs', hgrown, hpages⟩ := closeSegment_grown (q := q) hseg hfits ha₀ ha₁ hnear hdone hcur
    exact ⟨s', hs', hgrown, hpages.ppaMin.trans hs₁.ppaMin, hpages.ppaMax.trans hs₁.ppaMax,
      hpages.lbaPrev.trans hs₁.lbaPrev⟩
  have hx := (dot_lt (hq r hr)).1
  have hy : ∀ d ∈ (o :: m :: cur).map dot, d.y ≤ (dot q).y := by
    intro d hd
    obtain ⟨r', hr', rfl⟩ := List.mem_map.mp hd
    apply (dot_lt (hq r' hr')).2
  by_cases hout : s.lower.d * ((dot q).y + p.delta - s.sc.y) ≤ ((dot q).x - s.sc.x) * s.lower.n
      ∨ s.upper.d * ((dot q).y - p.delta - s.sd.y) ≥ ((dot q).x - s.sd.x) * s.upper.n
  · obtain ⟨s', hs', hgrown⟩ := hclose s (.refl s)
    refine ⟨s', bind_eq_ok.mpr ⟨a, ha, bind_eq_ok.mpr ⟨b, hb, ?_⟩⟩, hgrown⟩
    rw [if_pos hout]
    apply hs'
  · obtain ⟨hlo, hhi⟩ := not_or.mp hout
    rw [not_le, hext.lower] at hlo
    rw [ge_iff_le, not_le, hext.upper] at hhi
    have hlo' := (line_lt_iff hext.sa_lt (up p (dot q))).mpr hlo
    have hhi' := (lt_line_iff hext.sb_lt (low p (dot q))).mpr hhi
    obtain ⟨s₁, hs₁, hraised⟩ := updateLower_raised hext hrange hx hy hlo' hhi'
    obtain ⟨s₂, hs₂, hsame, hext₂⟩ := updateUpper_extreme hext hraised hx
    have hsame₂ := hraised.same.trans hsame
    obtain ⟨a', ha'⟩ := existQuantizedSlope_ok p s₂.lower s₂.upper
    by_cases hne' : a' = -1
    · obtain ⟨s', hs', hgrown⟩ := hclose s₂ hsame₂
      refine ⟨s', bind_eq_ok.mpr ⟨a, ha, bind_eq_ok.mpr ⟨b, hb, ?_⟩⟩, hgrown⟩
      rw [if_neg hout]
      refine bind_eq_ok.mpr ⟨s₁, hs₁, bind_eq_ok.mpr ⟨s₂, hs₂, bind_eq_ok.mpr ⟨a', ha', ?_⟩⟩⟩
      rw [if_pos hne']
      apply hs'
    · refine ⟨{ s₂ with member := s₂.member ++ [dot q] },
        bind_eq_ok.mpr ⟨a, ha, bind_eq_ok.mpr ⟨b, hb, ?_⟩⟩, ?_,
        ⟨hsame₂.ppaMin, hsame₂.ppaMax, hsame₂.lbaPrev⟩⟩
      · rw [if_neg hout]
        refine bind_eq_ok.mpr ⟨s₁, hs₁, bind_eq_ok.mpr ⟨s₂, hs₂, bind_eq_ok.mpr ⟨a', ha', ?_⟩⟩⟩
        rw [if_neg hne']
        rfl
      · refine ⟨lines, done, o :: m :: (cur ++ [q]), by simp, ?_, ?_, ?_⟩
        · dsimp only
          rw [hsame₂.member, h.member]
          simp
        · dsimp only
          rw [hsame₂.store]
          apply h.segments
        · refine .more (r := q) (by simp) ?_ ha' hne'
          have heq : (o :: m :: (cur ++ [q])).map dot = (o :: m :: cur).map dot ++ [dot q] := by simp
          rw [heq]
          exact ⟨hext₂.bracket, hext₂.sa_lt, hext₂.sb_lt, hext₂.lower, hext₂.upper,
            hext₂.headLower, hext₂.headUpper, hext₂.upper_lt⟩

/-- The counters of addresses and pages. -/
structure Counted (pairs : List (ℤ × ℤ)) (s : Builder) : Prop where
  lbaPrev : s.lbaPrev = -1 ∨ ∃ q ∈ pairs, s.lbaPrev = q.1
  between : ∀ q ∈ pairs, s.ppaMin ≤ q.2 ∧ q.2 ≤ s.ppaMax
  least : pairs = [] ∨ ∃ q ∈ pairs, s.ppaMin = q.2
  largest : pairs = [] ∨ ∃ q ∈ pairs, s.ppaMax = q.2
  bounds : pairs = [] → s.ppaMin = 2147483647 ∧ s.ppaMax = -2147483648

/-- The pairs `pairs` have been inserted. -/
structure Inserted (pairs : List (ℤ × ℤ)) (s : Builder) : Prop where
  shape : ∃ lines done cur, done ++ cur = pairs ∧ Shape p lines done cur s
  counted : Counted pairs s

theorem SamePages.counted {pairs : List (ℤ × ℤ)} {s s' : Builder} (h : SamePages s s')
    (hs : Counted pairs s) :
  Counted pairs s'
  where
    lbaPrev := by rw [h.lbaPrev]; exact hs.lbaPrev
    between := by rw [h.ppaMin, h.ppaMax]; exact hs.between
    least := by rw [h.ppaMin]; exact hs.least
    largest := by rw [h.ppaMax]; exact hs.largest
    bounds := by rw [h.ppaMin, h.ppaMax]; exact hs.bounds

/-- The counters after the first assignments of an insertion. -/
theorem Counted.insert {pairs : List (ℤ × ℤ)} (h : Counted pairs s) {q : ℤ × ℤ} (hq : Fits q) :
  Counted (pairs ++ [q]) { s with
    ppaMin := min q.2 s.ppaMin
    ppaMax := max q.2 s.ppaMax
    lbaPrev := q.1 }
  := by
  have hmem : q ∈ pairs ++ [q] := by simp
  have hge := hq.ppa_ge
  have hlt := hq.ppa_lt
  constructor
  · right
    exact ⟨q, hmem, rfl⟩
  · intro r hr
    dsimp only
    obtain hr | hr := List.mem_append.mp hr
    · have := h.between r hr
      omega
    · rw [List.mem_singleton.mp hr]
      omega
  · right
    dsimp only
    rcases h.least with rfl | ⟨r, hr, heq⟩
    · have := (h.bounds rfl).1
      use q, hmem, by omega
    · rcases le_total q.2 s.ppaMin with hle | hle
      · use q, hmem, min_eq_left hle
      · use r, List.mem_append_left _ hr, by rw [min_eq_right hle, heq]
  · right
    dsimp only
    rcases h.largest with rfl | ⟨r, hr, heq⟩
    · have := (h.bounds rfl).2
      use q, hmem, by omega
    · rcases le_total q.2 s.ppaMax with hle | hle
      · use r, List.mem_append_left _ hr, by rw [max_eq_right hle, heq]
      · use q, hmem, max_eq_left hle
  · simp

/-- One insertion. -/
theorem insert_inserted {pairs : List (ℤ × ℤ)} {q : ℤ × ℤ} (h : Inserted (p := p) pairs s)
    (hrange : p.range < 2400) (hfits : ∀ r ∈ pairs ++ [q], Fits r)
    (hpair : (pairs ++ [q]).Pairwise Earlier) :
  ∃ s', s.insert p q.1 q.2 = .ok s' ∧ Inserted (p := p) (pairs ++ [q]) s'
  := by
  obtain ⟨⟨lines, done, cur, rfl, hshape⟩, hcounted⟩ := h
  obtain ⟨hpair', -, hq⟩ := List.pairwise_append.mp hpair
  obtain ⟨-, hcur, hdone⟩ := List.pairwise_append.mp hpair'
  have hq : ∀ r ∈ done ++ cur, Earlier r q := fun r hr => hq r hr q (List.mem_singleton_self q)
  have hfitsq : Fits q := hfits q (by simp)
  have hlba : s.lbaPrev < q.1 := by
    rcases hcounted.lbaPrev with h | ⟨r, hr, h⟩
    · have := hfitsq.lba_ge
      omega
    · rw [h]
      apply (hq r hr).1
  have hcounted' := hcounted.insert hfitsq
  generalize hs₁ : ({ s with
    ppaMin := min q.2 s.ppaMin
    ppaMax := max q.2 s.ppaMax
    lbaPrev := q.1 } : Builder) = s₁ at hcounted'
  have hshape₁ : Shape p lines done cur s₁ := by
    rw [← hs₁]
    use hshape.member, hshape.segments
    cases hshape.opened with
    | none => exact .none
    | one sa sb cvxLower cvxUpper => exact .one sa sb cvxLower cvxUpper
    | more mem ext slope ne =>
        exact .more mem ⟨ext.bracket, ext.sa_lt, ext.sb_lt, ext.lower, ext.upper, ext.headLower,
          ext.headUpper, ext.upper_lt⟩ slope ne
  obtain ⟨s', hs', hg, hpages⟩ : ∃ s', s.insert p q.1 q.2 = .ok s' ∧
      Grown p (done ++ cur ++ [q]) s₁ s' := by
    unfold Builder.insert
    rw [(require_eq_ok (u := ())).mpr hlba]
    simp only [bind, Except.bind, hs₁]
    rw [hshape.member]
    cases cur with
    | nil =>
        refine ⟨_, rfl, ⟨lines, done, [q], by simp, rfl, hshape₁.segments, ?_⟩, ⟨rfl, rfl, rfl⟩⟩
        exact .one rfl rfl rfl rfl
    | cons o cur =>
        have hgap := fun r hr => hdone r hr o (by simp)
        have ho : Fits o := hfits o (by simp)
        cases cur with
        | nil => apply insertSecond_grown hshape₁ hrange ho hgap (hq o (by simp))
        | cons m cur =>
            apply insertMore_grown hshape₁ hrange ho hgap (List.pairwise_cons.mp hcur).1
              (fun r hr => hq r (List.mem_append_right _ hr))
  exact ⟨s', hs', hg, hpages.counted hcounted'⟩

/-- Insertions one after another. -/
theorem insertAll_inserted (rest : List (ℤ × ℤ)) (hrange : p.range < 2400) :
  ∀ {pairs : List (ℤ × ℤ)} {s : Builder}, Inserted (p := p) pairs s →
    (∀ r ∈ pairs ++ rest, Fits r) → (pairs ++ rest).Pairwise Earlier →
    ∃ s', s.insertAll p rest = .ok s' ∧ Inserted (p := p) (pairs ++ rest) s'
  := by
  induction rest with
  | nil =>
      intro pairs s h _ _
      rw [List.append_nil]
      exact ⟨s, rfl, h⟩
  | cons q rest ih =>
      intro pairs s h hfits hpair
      rw [List.append_cons] at hfits hpair ⊢
      obtain ⟨s₁, h₁, hs₁⟩ := insert_inserted h hrange
        (fun r hr => hfits r (List.mem_append_left _ hr)) (List.pairwise_append.mp hpair).1
      obtain ⟨s', h', hs'⟩ := ih hs₁ hfits hpair
      exact ⟨s', bind_eq_ok.mpr ⟨s₁, h₁, h'⟩, hs'⟩

theorem inserted_new (u : Unset) :
  Inserted (p := p) [] (.new u)
  := by
  refine ⟨⟨[], [], [], rfl, rfl, ⟨LineStore.stored_new p, ?_, ?_, ?_, ?_⟩, .none⟩, ?_⟩
  · simp
  · apply List.Pairwise.nil
  · simp
  · simp
  · use .inl rfl, by simp, .inl rfl, .inl rfl, fun _ => ⟨rfl, rfl⟩

end Insert

/-! ### Lookups -/

section Lookup

variable {p} {pairs : List (ℤ × ℤ)} {s : Builder}

theorem lineNo_zero_le {lines : List Line} (hpair : lines.Pairwise Line.Before) {i : ℕ} {l : Line}
    (hi : lines[i]? = some l) :
  (lineNo lines 0).x ≤ l.x
  := by
  obtain ⟨hlt, rfl⟩ := List.getElem?_eq_some_iff.mp hi
  have hzero : 0 < lines.length := by omega
  unfold lineNo
  rw [List.getElem?_eq_getElem hzero]
  rcases Nat.eq_zero_or_pos i with rfl | hpos
  · apply le_rfl
  · apply (List.pairwise_iff_getElem.mp hpair 0 i hzero hlt hpos).1.le

/-- A lookup finds the line of a pair. -/
theorem lineAt_lastLine {lines : List Line} {offsets : List ℕ} {store : LineStore} {lba : ℤ}
    {l : Line} (h : LineStore.Closed p lines offsets store) (hvalid : ∀ l ∈ lines, l.Valid p)
    (hpair : lines.Pairwise Line.Before) (hl : LastLine lines lba l) :
  store.lineAt p lba = .ok l
  := by
  have hline : ∀ j, j < lines.length → lines[j]? = some (lineNo lines j) := by
    intro j hj
    unfold lineNo
    rw [List.getElem?_eq_getElem hj]
    rfl
  have hfirst : (lineNo lines 0).x ≤ lba := by
    obtain ⟨i, hi, hx, -⟩ := hl
    apply le_trans (lineNo_zero_le hpair hi) hx
  obtain ⟨j, hlocate, hj, hjx, hlater⟩ := LineStore.locate_eq h hpair hfirst
  have hfound : LastLine lines lba (lineNo lines j) := by
    use j, hline j hj, hjx
    intro i l' hi hl'
    have hlt := (List.getElem?_eq_some_iff.mp hl').1
    rw [hline i hlt] at hl'
    cases hl'
    apply hlater i hi hlt
  rw [hl.unique hfound]
  apply LineStore.lineAt_eq h hvalid hj hlocate

/-- The page that `get` computes from a line. -/
theorem get_of_lineAt {lba : ℤ} {l : Line} (hline : s.store.lineAt p lba = .ok l) :
  s.get p lba = .ok (if (l.value p lba).tdiv p.bit < int32 (s.ppaMin * tick) then s.ppaMin
    else if (l.value p lba).tdiv p.bit > int32 (s.ppaMax * tick) then s.ppaMax
    else ((l.value p lba).tdiv p.bit).tdiv tick)
  := by
  refine bind_eq_ok.mpr ⟨l, hline, ?_⟩
  change (if (l.value p lba).tdiv p.bit < int32 (s.ppaMin * tick) then pure s.ppaMin
    else if (l.value p lba).tdiv p.bit > int32 (s.ppaMax * tick) then pure s.ppaMax
    else pure (((l.value p lba).tdiv p.bit).tdiv tick)) = _
  split
  · rfl
  · split
    · rfl
    · rfl

/-- The page that `get` computes from a line near the pair. -/
theorem get_near {q : ℤ × ℤ} {l : Line} (hline : s.store.lineAt p q.1 = .ok l)
    (hnear : Near p l q) (hrange : p.range ≤ 190) (hq : s.ppaMin ≤ q.2 ∧ q.2 ≤ s.ppaMax)
    (hmin : 0 ≤ s.ppaMin) (hmax : s.ppaMax ≤ 10737418) :
  ∃ v, s.get p q.1 = .ok v ∧ |v - q.2| ≤ 1
  := by
  have hbit := bit_pos p
  have hδ : p.delta ≤ 290 := by
    unfold Param.delta tick
    omega
  have hintmin : int32 (s.ppaMin * tick) = s.ppaMin * tick
    := int32_eq (by unfold tick; omega) (by unfold tick; omega)
  have hintmax : int32 (s.ppaMax * tick) = s.ppaMax * tick
    := int32_eq (by unfold tick; omega) (by unfold tick; omega)
  obtain ⟨hlow, hup⟩ := hnear
  have hge : (dot q).y - p.delta ≤ (l.value p q.1).tdiv p.bit := by
    rw [← Int.mul_tdiv_cancel ((dot q).y - p.delta) hbit.ne']
    apply Int.tdiv_le_tdiv hbit hlow
  have hle : (l.value p q.1).tdiv p.bit ≤ (dot q).y + p.delta := by
    rw [← Int.mul_tdiv_cancel ((dot q).y + p.delta) hbit.ne']
    apply Int.tdiv_le_tdiv hbit hup
  generalize hv : (l.value p q.1).tdiv p.bit = v at hge hle
  simp only [dot, tick] at hge hle
  have hget := get_of_lineAt hline
  rw [hv, hintmin, hintmax] at hget
  refine ⟨_, hget, ?_⟩
  unfold tick
  rw [abs_le]
  split
  · omega
  · split
    · omega
    · rw [Int.tdiv_eq_ediv_of_nonneg (by omega)]
      omega

/-- The line of the open segment is pushed. -/
theorem pushOpen_segments (h : Inserted (p := p) pairs s) (hlone : 2 ≤ s.member.length)
    (hfits : ∀ r ∈ pairs, Fits r) (hpair : pairs.Pairwise Earlier) :
  ∃ store lines, s.pushOpen p = .ok store ∧ Segments p lines pairs store ∧ lines ≠ []
  := by
  obtain ⟨⟨lines, done, cur, rfl, hshape⟩, -⟩ := h
  obtain ⟨-, hcur, hdone⟩ := List.pairwise_append.mp hpair
  rw [hshape.member, List.length_map] at hlone
  cases hshape.opened with
  | none => exact absurd hlone (by decide)
  | one => exact absurd hlone (Nat.not_succ_le_self 1)
  | @more o m r cur a mem ext slope ne =>
      obtain ⟨ha₀, ha₁, ha₂, ha₃⟩ := existQuantizedSlope_spec slope ne
      obtain ⟨b, hb, hbound⟩ := findInterceptO1_near ext ha₂ ha₃
        (List.mem_map_of_mem (f := dot) (List.mem_cons_self (a := o) (l := m :: cur)))
      obtain ⟨store, hpush, hseg⟩ := hshape.segments.push (hfits o (by simp)) ha₀ ha₁
        (fun r hr => hbound (dot r) (List.mem_map_of_mem hr))
        (fun r hr => hdone r hr o (by simp)) (List.pairwise_cons.mp hcur).1
      refine ⟨store, _, ?_, hseg, by simp⟩
      unfold Builder.pushOpen
      rw [hshape.member]
      apply bind_eq_ok.mpr ⟨a, slope, bind_eq_ok.mpr ⟨b, hb, hpush⟩⟩

end Lookup

/-- Every pair that has been inserted is found with an error of at most one page. -/
def Within (pairs : List (ℤ × ℤ)) (s : Builder) : Prop :=
  ∃ s', s.insertEnd p = .ok s' ∧ ∀ q ∈ pairs, ∃ v, s'.get p q.1 = .ok v ∧ |v - q.2| ≤ 1

/-- Pairs are inserted in the order of their addresses.  When the last segment has two pairs
and the pages can be multiplied with `TICK`, each lookup is at most one page away. -/
theorem insertAll_within (u : Unset) (pairs : List (ℤ × ℤ)) (hrange : p.range ≤ 190)
    (hfits : ∀ q ∈ pairs, Fits q) (hpair : pairs.Pairwise Earlier) :
  ∃ s, (Builder.new u).insertAll p pairs = .ok s
    ∧ (2 ≤ s.member.length → (∀ q ∈ pairs, q.2 ≤ 10737418) → Within p pairs s)
  := by
  obtain ⟨s, hs, hins⟩ := insertAll_inserted pairs (by omega) (inserted_new (p := p) u) hfits hpair
  use s, hs
  intro hlone hppa
  rw [List.nil_append] at hins
  obtain ⟨store, lines, hpush, hseg, hne⟩ := pushOpen_segments hins hlone hfits hpair
  obtain ⟨store', hclose, hclosed⟩ := LineStore.close_closed hseg.stored hne
  refine ⟨_, bind_eq_ok.mpr ⟨store, hpush, bind_eq_ok.mpr ⟨store', hclose, rfl⟩⟩, ?_⟩
  intro q hq
  obtain ⟨l, hl, hnear⟩ := hseg.near q hq
  have hnil : pairs ≠ [] := List.ne_nil_of_mem hq
  have hcounted := hins.counted
  refine get_near (s := { s with store := store', member := [], cvxUpper := [], cvxLower := [] })
    (lineAt_lastLine hclosed hseg.valid hseg.pairwise hl) hnear hrange (hcounted.between q hq) ?_ ?_
  · obtain ⟨r, hr, heq⟩ := hcounted.least.resolve_left hnil
    dsimp only
    rw [heq]
    apply (hfits r hr).ppa_ge
  · obtain ⟨r, hr, heq⟩ := hcounted.largest.resolve_left hnil
    dsimp only
    rw [heq]
    apply hppa r hr

/-- The largest range. -/
def largeRange : Param := ⟨7, 190, smallRange.slopeBit_pos, by decide⟩

theorem insertAll_within_fourPairs :
  ∃ s, (Builder.new ⟨⟨0, 0⟩, ⟨0, 0⟩, ⟨0, 0⟩, ⟨0, 0⟩, ⟨0, 0⟩, ⟨0, 0⟩⟩).insertAll largeRange
      [(0, 0), (1, 0), (2, 14), (3, 14)] = .ok s
    ∧ 2 ≤ s.member.length ∧ Within largeRange [(0, 0), (1, 0), (2, 14), (3, 14)] s
  := by
  have hpages : ∀ q ∈ [((0 : ℤ), (0 : ℤ)), (1, 0), (2, 14), (3, 14)], Fits q ∧ q.2 ≤ 10737418 := by
    intro q hq
    simp only [List.mem_cons, List.not_mem_nil, or_false] at hq
    rcases hq with rfl | rfl | rfl | rfl
    all_goals exact ⟨⟨by decide, by decide, by decide, by decide⟩, by decide⟩
  obtain ⟨s, hs, hwithin⟩ := insertAll_within largeRange
    ⟨⟨0, 0⟩, ⟨0, 0⟩, ⟨0, 0⟩, ⟨0, 0⟩, ⟨0, 0⟩, ⟨0, 0⟩⟩ [(0, 0), (1, 0), (2, 14), (3, 14)]
    (by decide) (fun q hq => (hpages q hq).1) (by simp [Earlier])
  have hmember : ((Builder.new ⟨⟨0, 0⟩, ⟨0, 0⟩, ⟨0, 0⟩, ⟨0, 0⟩, ⟨0, 0⟩, ⟨0, 0⟩⟩).insertAll largeRange
      [(0, 0), (1, 0), (2, 14), (3, 14)]).map (fun s => s.member.length) = .ok 2 := by
    decide +kernel
  rw [hs] at hmember
  have hlen : s.member.length = 2 := Except.ok.inj hmember
  exact ⟨s, hs, hlen.ge, hwithin hlen.ge fun q hq => (hpages q hq).2⟩

/-- The state after the pairs `(0, 0)` and `(1, 0)`. -/
def twoPairs : Builder where
  store := .new
  member := [⟨0, 100⟩, ⟨60, 100⟩]
  lower := ⟨-580, 60⟩
  upper := ⟨580, 60⟩
  sa := ⟨0, 390⟩
  sb := ⟨0, -190⟩
  sc := ⟨60, -190⟩
  sd := ⟨60, 390⟩
  cvxUpper := [⟨0, -190⟩, ⟨60, -190⟩]
  cvxLower := [⟨0, 390⟩, ⟨60, 390⟩]
  ppaMin := 0
  ppaMax := 0
  lbaPrev := 1

/-- The last pair is alone in its segment, and its line is made from the extreme lines of the
segment before. -/
theorem get_loneMember (u : Unset) :
  ((Builder.new u).insertAll largeRange [(0, 0), (1, 0), (2, 14)]).bind
    (fun s => (s.insertEnd largeRange).bind fun s => s.get largeRange 2) = .ok 12
  := by
  have htwo : (Builder.new u).insertAll largeRange [(0, 0), (1, 0)] = .ok twoPairs := rfl
  have hthree : (Builder.new u).insertAll largeRange [(0, 0), (1, 0), (2, 14)]
      = twoPairs.insert largeRange 2 14 := by
    unfold Builder.insertAll at htwo ⊢
    have happ : [((0 : ℤ), (0 : ℤ)), (1, 0), (2, 14)] = [(0, 0), (1, 0)] ++ [(2, 14)] := rfl
    rw [happ, List.foldlM_append, htwo]
    apply bind_pure (twoPairs.insert largeRange 2 14)
  rw [hthree]
  decide +kernel

/-- The error of a lone pair can be two pages. -/
theorem not_within_loneMember :
  ∃ pairs : List (ℤ × ℤ), pairs ≠ [] ∧ (∀ q ∈ pairs, Fits q) ∧ pairs.Pairwise Earlier ∧ ∀ u s,
    (Builder.new u).insertAll largeRange pairs = .ok s → ¬ Within largeRange pairs s
  := by
  refine ⟨[(0, 0), (1, 0), (2, 14)], by decide, ?_, by simp [Earlier], ?_⟩
  · intro q hq
    simp only [List.mem_cons, List.not_mem_nil, or_false] at hq
    rcases hq with rfl | rfl | rfl
    all_goals exact ⟨by decide, by decide, by decide, by decide⟩
  · rintro u s hs ⟨s', hs', hwithin⟩
    have hget := get_loneMember u
    obtain ⟨v, hv, hle⟩ := hwithin (2, 14) (by simp)
    rw [hs] at hget
    change (s.insertEnd largeRange).bind (fun s => s.get largeRange 2) = .ok 12 at hget
    rw [hs'] at hget
    obtain rfl : v = 12 := Except.ok.inj (hv.symm.trans hget)
    exact absurd hle (by decide)

end Plr

end AppL
