import Mathlib.Algebra.Order.Round
import Mathlib.Data.Rat.Floor
import AppL.Plr.LineStore

/-!
# Piecewise linear regression

Pairs of an address and a page are inserted in the order of their addresses.  The pairs of the
open segment have lines that come within `delta` of all of them; `lower` and `upper` are the
least and the largest slope of such a line, and two convex chains of points give the next
extreme lines.  When no slope of `slope_bit` bits is left, the segment is closed and its line
is pushed.
-/

namespace AppL

open Transition

namespace Plr

/-- A `dot`. -/
structure Dot where
  x : ℤ
  y : ℤ
  deriving DecidableEq, Repr

/-- A `slope`. -/
structure Slope where
  n : ℤ
  d : ℤ
  deriving DecidableEq, Repr

/-- The comparison of slopes. -/
def Slope.lt (s other : Slope) : Bool := s.n * other.d < s.d * other.n

/-- `get_slope`. -/
def getSlope (a b : Dot) : Slope := ⟨b.y - a.y, b.x - a.x⟩

/-- `ccw`, without the conversion of the difference to `int64_t`. -/
def ccw (a b c : Dot) : ℤ := ((b.x - a.x) * (c.y - a.y) - (b.y - a.y) * (c.x - a.x)).sign

theorem abs_mul_sub_lt {x x' y y' : ℤ} (hx : 0 ≤ x ∧ x < 2 ^ 37) (hx' : 0 ≤ x' ∧ x' < 2 ^ 37)
    (hy : |y| < 2 ^ 24) (hy' : |y'| < 2 ^ 24) :
  |(x - x') * (y - y')| < 2 ^ 62
  := by
  have hdx : |x - x'| < 2 ^ 37 := by
    rw [abs_sub_lt_iff]
    omega
  have hdy : |y - y'| < 2 ^ 25 := by
    rw [abs_lt] at hy hy'
    rw [abs_sub_lt_iff]
    omega
  rw [abs_mul]
  calc |x - x'| * |y - y'|
      < 2 ^ 37 * 2 ^ 25 := mul_lt_mul'' hdx hdy (abs_nonneg _) (abs_nonneg _)
    _ = 2 ^ 62 := by norm_num

/-- The conversion changes nothing for points that are small. -/
theorem ccw_eq_sign_int64 {a b c : Dot} (hx : ∀ q ∈ [a, b, c], 0 ≤ q.x ∧ q.x < 2 ^ 37)
    (hy : ∀ q ∈ [a, b, c], |q.y| < 2 ^ 24) :
  ccw a b c
    = (BitVec.ofInt 64 ((b.x - a.x) * (c.y - a.y) - (b.y - a.y) * (c.x - a.x))).toInt.sign
  := by
  have hfst := abs_mul_sub_lt (hx b (by simp)) (hx a (by simp)) (hy c (by simp)) (hy a (by simp))
  have hsnd := abs_mul_sub_lt (hx c (by simp)) (hx a (by simp)) (hy b (by simp)) (hy a (by simp))
  rw [mul_comm] at hsnd
  rw [abs_lt] at hfst hsnd
  rw [ccw, BitVec.toInt_ofInt, Int.bmod_eq_of_le]
  · omega
  · omega

/-- A `PLR`, with the lines that have been pushed. -/
structure Builder where
  store : LineStore
  member : List Dot
  lower : Slope
  upper : Slope
  sa : Dot
  sb : Dot
  sc : Dot
  sd : Dot
  cvxUpper : List Dot
  cvxLower : List Dot
  ppaMin : ℤ
  ppaMax : ℤ
  lbaPrev : ℤ

/-- The fields that the constructor does not set. -/
structure Unset where
  lower : Slope
  upper : Slope
  sa : Dot
  sb : Dot
  sc : Dot
  sd : Dot

/-- `EPS`. -/
def eps : ℚ := 1 / 10 ^ 9

/-- A conversion to `int64_t`. -/
def truncate (r : ℚ) : ℤ := if 0 ≤ r then ⌊r⌋ else ⌈r⌉

section Param

variable (p : Param)

/-- The loop of `exist_quantized_slope`. -/
def slopeSearch (lower upper : Slope) : ℕ → ℤ → ℤ → Except Abort ℤ
  | 0, low, high => if high - low = 1 then .ok (-1) else .error .endlessLoop
  | fuel + 1, low, high =>
      if high - low = 1 then
        .ok (-1)
      else
        let mid := (low + high) / 2
        if mid * upper.d ≥ upper.n * p.bit then
          slopeSearch lower upper fuel low mid
        else if mid * lower.d ≤ lower.n * p.bit then
          slopeSearch lower upper fuel mid high
        else
          .ok mid

/-- `exist_quantized_slope`. -/
def existQuantizedSlope (lower upper : Slope) : Except Abort ℤ :=
  if upper.n ≤ 0 then
    .ok (-1)
  else if lower.n < 0 then
    .ok 0
  else if lower.n * p.bit ≥ lower.d * (p.bit - 1) then
    .ok (-1)
  else
    slopeSearch p lower upper p.aBit 0 p.bit

namespace Builder

/-- The constructor. -/
def new (u : Unset) : Builder where
  store := .new
  member := []
  lower := u.lower
  upper := u.upper
  sa := u.sa
  sb := u.sb
  sc := u.sc
  sd := u.sd
  cvxUpper := []
  cvxLower := []
  ppaMin := 2147483647
  ppaMax := -2147483648
  lbaPrev := -1

variable (s : Builder)

/-- `find_intercept_o1` with exact arithmetic; `o` is the first member. -/
def findInterceptO1 (o : Dot) (slp : ℤ) : Except Abort ℤ := do
  let a : Dot := ⟨s.sa.x - o.x, s.sa.y - o.y⟩
  let b : Dot := ⟨s.sb.x - o.x, s.sb.y - o.y⟩
  let c : Dot := ⟨s.sc.x - o.x, s.sc.y - o.y⟩
  let d : Dot := ⟨s.sd.x - o.x, s.sd.y - o.y⟩
  require .divByZero (c.x - a.x ≠ 0)
  let p1 : ℚ := (c.y - a.y : ℤ) / (c.x - a.x : ℤ)
  let q1 : ℚ := -p1 * a.x + a.y
  require .divByZero (d.x - b.x ≠ 0)
  let p2 : ℚ := (d.y - b.y : ℤ) / (d.x - b.x : ℤ)
  let q2 : ℚ := -p2 * b.x + b.y
  require .divByZero (p1 - p2 ≠ 0)
  let xIntersect := (q2 - q1) / (p1 - p2)
  let yIntersect := p1 * xIntersect + q1
  let ret := (yIntersect - xIntersect * slp / p.bit + p.delta + eps) * p.bit
  return truncate ret - p.delta * p.bit

/-- A segment begins with the point `q`. -/
def beginSegment (q : Dot) : Builder :=
  { s with
    sa := ⟨q.x, q.y + p.delta⟩
    sb := ⟨q.x, q.y - p.delta⟩
    cvxLower := [⟨q.x, q.y + p.delta⟩]
    cvxUpper := [⟨q.x, q.y - p.delta⟩]
    member := [q] }

/-- The line of the segment that begins at `o` is pushed, and a segment begins with `q`. -/
def closeSegment (o q : Dot) (a b : ℤ) : Except Abort Builder := do
  let store ← s.store.linePushBack p o.x o.y (int32 a) (int32 b)
  return beginSegment p { s with store := store } q

/-- The second point of a segment. -/
def insertSecond (o q : Dot) : Except Abort Builder := do
  let sc : Dot := ⟨q.x, q.y - p.delta⟩
  let sd : Dot := ⟨q.x, q.y + p.delta⟩
  let s : Builder := { s with
    sc := sc
    sd := sd
    lower := getSlope s.sa sc
    upper := getSlope s.sb sd }
  let a ← existQuantizedSlope p s.lower s.upper
  if a = -1 then
    s.closeSegment p o q 0 0
  else
    return { s with
      cvxUpper := s.cvxUpper ++ [sc]
      cvxLower := s.cvxLower ++ [sd]
      member := s.member ++ [q] }

/-- The loop over `cvx_lower`: the part of the chain from `max_it` on. -/
def maxFrom (q : Dot) : Slope → Option (List Dot) → List Dot → Option (List Dot)
  | _, best, [] => best
  | slpMax, best, it :: l =>
      if slpMax.lt (getSlope it q) then maxFrom q (getSlope it q) (some (it :: l)) l else best

/-- The loop over `cvx_upper`: the part of the chain from `min_it` on. -/
def minFrom (q : Dot) : Slope → Option (List Dot) → List Dot → Option (List Dot)
  | _, best, [] => best
  | slpMin, best, it :: l =>
      if (getSlope it q).lt slpMin then minFrom q (getSlope it q) (some (it :: l)) l else best

/-- The loop of the ccw check, with the chain before `it` from its end on: `jt` goes unless
the turn is `sign`. -/
def eraseBack (sign : ℤ) (it : Dot) : List Dot → List Dot
  | jt :: kt :: l => if ccw it jt kt ≠ sign then eraseBack sign it (kt :: l) else jt :: kt :: l
  | l => l

/-- A point is put behind a chain, with the ccw check. -/
def pushBack (sign : ℤ) (it : Dot) (l : List Dot) : List Dot :=
  (eraseBack sign it l.reverse).reverse ++ [it]

/-- The new extreme line with the least slope, unless the old one is not below the point. -/
def updateLower (q : Dot) : Except Abort Builder :=
  let low : Dot := ⟨q.x, q.y - p.delta⟩
  if s.lower.d * (low.y - s.sc.y) > (low.x - s.sc.x) * s.lower.n then
    match maxFrom low ⟨-10000, 1⟩ none s.cvxLower with
    | some (sa :: l) =>
        .ok { s with
          sa := sa
          sc := low
          cvxLower := sa :: l
          lower := getSlope sa low
          cvxUpper := pushBack 1 low s.cvxUpper }
    | _ => .error .outOfBounds
  else
    .ok s

/-- The new extreme line with the largest slope, unless the old one is not above the point. -/
def updateUpper (q : Dot) : Except Abort Builder :=
  let up : Dot := ⟨q.x, q.y + p.delta⟩
  if s.upper.d * (up.y - s.sd.y) < (up.x - s.sd.x) * s.upper.n then
    match minFrom up ⟨10000, 1⟩ none s.cvxUpper with
    | some (sb :: l) =>
        .ok { s with
          sb := sb
          sd := up
          cvxUpper := sb :: l
          upper := getSlope sb up
          cvxLower := pushBack (-1) up s.cvxLower }
    | _ => .error .outOfBounds
  else
    .ok s

/-- A further point of a segment. -/
def insertMore (o q : Dot) : Except Abort Builder := do
  let a ← existQuantizedSlope p s.lower s.upper
  let b ← s.findInterceptO1 p o a
  if s.lower.d * (q.y + p.delta - s.sc.y) ≤ (q.x - s.sc.x) * s.lower.n
      ∨ s.upper.d * (q.y - p.delta - s.sd.y) ≥ (q.x - s.sd.x) * s.upper.n then
    s.closeSegment p o q a b
  else do
    let s ← s.updateLower p q
    let s ← s.updateUpper p q
    let a' ← existQuantizedSlope p s.lower s.upper
    if a' = -1 then
      s.closeSegment p o q a b
    else
      return { s with member := s.member ++ [q] }

/-- `insert`. -/
def insert (lba ppa : ℤ) : Except Abort Builder := do
  require .lbaOrder (s.lbaPrev < lba)
  let s : Builder := { s with
    ppaMin := min ppa s.ppaMin
    ppaMax := max ppa s.ppaMax
    lbaPrev := lba }
  let q : Dot := ⟨lba * correction, ppa * tick + tick / 2⟩
  match s.member with
  | [] => return s.beginSegment p q
  | [o] => s.insertSecond p o q
  | o :: _ => s.insertMore p o q

/-- The line of the open segment is pushed, if there is one. -/
def pushOpen : Except Abort LineStore :=
  match s.member with
  | [] => .ok s.store
  | o :: _ => do
      let a ← existQuantizedSlope p s.lower s.upper
      let b ← s.findInterceptO1 p o a
      s.store.linePushBack p o.x o.y (int32 a) (int32 b)

/-- `insert_end`. -/
def insertEnd : Except Abort Builder := do
  let store ← s.pushOpen p
  let store ← store.close
  return { s with store := store, member := [], cvxUpper := [], cvxLower := [] }

/-- `get`. -/
def get (lba : ℤ) : Except Abort ℤ := do
  let l ← s.store.lineAt p lba
  let x := l.x * correction
  let y := l.y * tick + tick / 2
  let expected := (y * p.bit + (lba * correction - x) * l.a + l.b).tdiv p.bit
  if expected < int32 (s.ppaMin * tick) then
    return s.ppaMin
  else if expected > int32 (s.ppaMax * tick) then
    return s.ppaMax
  else
    return expected.tdiv tick

/-- Pairs are inserted one after another. -/
def insertAll (s : Builder) (pairs : List (ℤ × ℤ)) : Except Abort Builder :=
  pairs.foldlM (fun s q => s.insert p q.1 q.2) s

end Builder

end Param

end Plr

end AppL
