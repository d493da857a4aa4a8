import Mathlib.Algebra.Order.Ring.Int
import Mathlib.Tactic.NormNum
import Mathlib.Tactic.Zify
import AppL.Plr.LineStore

/-!
# The lines come back

What the arrays hold after lines have been pushed, and that a lookup stops at the last line
that does not begin after the address and reads that line.
-/

namespace AppL

open Transition

namespace Plr

/-- The lines that a store can keep: the coordinates are those of an `int32_t`, and the slope
and the intercept fit their fields. -/
structure Line.Valid (p : Param) (l : Line) : Prop where
  x_ge : -2 ^ 31 ≤ l.x
  x_lt : l.x < 2 ^ 31
  y_ge : -2 ^ 31 ≤ l.y
  y_lt : l.y < 2 ^ 31
  a_ge : 0 ≤ l.a
  a_lt : l.a < 2 ^ p.aBit
  b_ge : -2 ^ (p.bBit - 1) ≤ l.b
  b_lt : l.b < 2 ^ (p.bBit - 1)

/-- A line that comes before another. -/
def Line.Before (l l' : Line) : Prop := l.x < l'.x ∧ l.y ≤ l'.y

theorem int32_eq {z : ℤ} (h : -2 ^ 31 ≤ z) (h' : z < 2 ^ 31) :
  int32 z = z
  := by
  apply Int.bmod_eq_of_le
  · norm_num at h ⊢
    apply h
  · norm_num at h' ⊢
    apply h'

/-! ### Fields -/

theorem toNat_ofInt {w : ℕ} {z : ℤ} (hw : w ≤ 64) (h : 0 ≤ z) (h' : z < 2 ^ w) :
  ((BitVec.ofInt 64 z).toNat : ℤ) = z
  := by
  have hlt : z < 2 ^ 64 := lt_of_lt_of_le h' (pow_le_pow_right₀ (by norm_num) hw)
  rw [BitVec.toNat_ofInt]
  norm_num at hlt ⊢
  omega

/-- A number that fits a field has no bits outside of it. -/
theorem getLsbD_ofInt {w : ℕ} {z : ℤ} (hw : w ≤ 64) (h : 0 ≤ z) (h' : z < 2 ^ w) (j : ℕ)
    (hj : w ≤ j) :
  (BitVec.ofInt 64 z).getLsbD j = false
  := by
  apply Nat.testBit_lt_two_pow
  have hz := toNat_ofInt hw h h'
  have hlt : (BitVec.ofInt 64 z).toNat < 2 ^ w := by
    zify
    rw [hz]
    apply h'
  apply lt_of_lt_of_le hlt (Nat.pow_le_pow_right (by norm_num) hj)

/-- The words hold the differences of `f` from each number to the next below `n`, except at
`offsets`. -/
def Deltas (w : ℕ) (words : List (BitVec 64)) (offsets : List ℕ) (f : ℕ → ℤ) (n : ℕ) : Prop :=
  ∃ vals, PackedArray.Holds w words vals ∧ vals.length = n ∧
    ∀ i, i + 1 < n → i + 1 ∉ offsets → vals[i + 1]? = some (BitVec.ofInt 64 (f (i + 1) - f i))
      ∧ 0 ≤ f (i + 1) - f i ∧ f (i + 1) - f i < 2 ^ w

section Deltas

variable {w n : ℕ} {words : List (BitVec 64)} {offsets : List ℕ} {f f' : ℕ → ℤ}

theorem deltas_nil (w : ℕ) (f : ℕ → ℤ) :
  Deltas w [0] [] f 0
  := ⟨[], PackedArray.holds_nil w, rfl, by simp⟩

theorem Deltas.congr (h : Deltas w words offsets f n) (hf : ∀ i < n, f' i = f i) :
  Deltas w words offsets f' n
  := by
  obtain ⟨vals, hold, hlen, hvals⟩ := h
  use vals, hold, hlen
  intro i hi hoff
  rw [hf (i + 1) hi, hf i (by omega)]
  apply hvals i hi hoff

/-- A field that is not a difference is written. -/
theorem Deltas.sentinel {z : ℤ} (h : Deltas w words offsets f n) (hw : 0 < w) (hw' : w ≤ 64)
    (hz : 0 ≤ z) (hz' : z < 2 ^ w) :
  ∃ words', PackedArray.set w words n (BitVec.ofInt 64 z) = some words'
    ∧ Deltas w words' (offsets ++ [n]) f (n + 1)
  := by
  obtain ⟨vals, hold, rfl, hvals⟩ := h
  obtain ⟨words', hset, hold'⟩ := hold.set hw hw' (getLsbD_ofInt hw' hz hz')
  refine ⟨words', hset, _, hold', by simp, ?_⟩
  intro i hi hoff
  rw [List.mem_append, List.mem_singleton, not_or] at hoff
  have hlt : i + 1 < vals.length := by omega
  rw [List.getElem?_append_left hlt]
  apply hvals i hlt hoff.1

/-- A difference is written. -/
theorem Deltas.push (h : Deltas w words offsets f (n + 1)) (hw : 0 < w) (hw' : w ≤ 64)
    (hz : 0 ≤ f (n + 1) - f n) (hz' : f (n + 1) - f n < 2 ^ w) :
  ∃ words', PackedArray.set w words (n + 1) (BitVec.ofInt 64 (f (n + 1) - f n)) = some words'
    ∧ Deltas w words' offsets f (n + 2)
  := by
  obtain ⟨vals, hold, hlen, hvals⟩ := h
  rw [← hlen]
  obtain ⟨words', hset, hold'⟩ := hold.set hw hw' (getLsbD_ofInt hw' hz hz')
  refine ⟨words', ?_, _, hold', by simp [hlen], ?_⟩
  · rw [hlen] at hset ⊢
    apply hset
  · intro i hi hoff
    by_cases hlt : i + 1 < vals.length
    · rw [List.getElem?_append_left hlt]
      apply hvals i (by omega) hoff
    · obtain rfl : i = n := by omega
      refine ⟨?_, hz, hz'⟩
      rw [← hlen, List.getElem?_concat_length, hlen]

/-- A difference is read. -/
theorem Deltas.get (h : Deltas w words offsets f n) (hw : 0 < w) (hw' : w ≤ 64) {i : ℕ}
    (hi : i + 1 < n) (hoff : i + 1 ∉ offsets) :
  ∃ v, PackedArray.get w words (i + 1) = some v ∧ (v.toNat : ℤ) = f (i + 1) - f i
  := by
  obtain ⟨vals, hold, rfl, hvals⟩ := h
  obtain ⟨hv, hz, hz'⟩ := hvals i hi hoff
  refine ⟨_, ?_, toNat_ofInt hw' hz hz'⟩
  rw [hold.get hw hw' hi, ← List.getElem?_eq_getElem hi, hv]

end Deltas

/-! ### What is stored -/

/-- The line with a number. -/
def lineNo (lines : List Line) (i : ℕ) : Line := lines[i]?.getD ⟨0, 0, 0, 0⟩

theorem lineNo_append {lines : List Line} {i : ℕ} (h : i < lines.length) (l : Line) :
  lineNo (lines ++ [l]) i = lineNo lines i
  := by
  unfold lineNo
  rw [List.getElem?_append_left h]

theorem lineNo_length (lines : List Line) (l : Line) :
  lineNo (lines ++ [l]) lines.length = l
  := by
  unfold lineNo
  rw [List.getElem?_concat_length]
  rfl

/-- The arrays hold the lines. -/
structure Stored (p : Param) (lines : List Line) (s : LineStore) : Prop where
  cnt : s.lineCnt = lines.length
  chunkX : s.chunkX = s.chunkOffset.map fun o => (lineNo lines o).x
  chunkY : s.chunkY = s.chunkOffset.map fun o => (lineNo lines o).y
  size : 0 < s.chunkSize ∧ s.chunkCnt ≤ s.chunkSize
  first : lines ≠ [] → s.chunkOffset.head? = some 0
  sorted : s.chunkOffset.Pairwise (· < ·)
  bound : ∀ o ∈ s.chunkOffset, o < lines.length
  prev : ∀ n, lines.length = n + 1 → s.xPrev = (lineNo lines n).x ∧ s.yPrev = (lineNo lines n).y
  xs : Deltas xBit s.xCompressed s.chunkOffset (fun i => (lineNo lines i).x) lines.length
  ys : Deltas yBit s.yCompressed s.chunkOffset (fun i => (lineNo lines i).y) lines.length
  as : PackedArray.Holds p.aBit s.aCompressed (lines.map fun l => BitVec.ofInt 64 l.a)
  bs : PackedArray.Holds p.bBit s.bCompressed
    (lines.map fun l => BitVec.ofInt 64 (LineStore.encodeB p l.b))

theorem Stored.offset_eq_nil {p : Param} {lines : List Line} {s : LineStore}
    (h : Stored p lines s) (hnil : lines = []) :
  s.chunkOffset = []
  := by
  rw [List.eq_nil_iff_forall_not_mem]
  intro o ho
  have hlt := h.bound o ho
  rw [hnil] at hlt
  cases hlt

namespace LineStore

variable {p : Param} {lines : List Line} {s s' : LineStore} {l : Line}

theorem stored_new (p : Param) :
  Stored p [] new
  where
    cnt := rfl
    chunkX := rfl
    chunkY := rfl
    size := by decide
    first h := absurd rfl h
    sorted := .nil
    bound := by simp [new]
    prev _ h := by cases h
    xs := deltas_nil ..
    ys := deltas_nil ..
    as := PackedArray.holds_nil _
    bs := PackedArray.holds_nil _

/-! ### Pushes -/

section Set

variable {index : ℕ} {value : ℤ} {words : List (BitVec 64)}

theorem setX_eq (h : PackedArray.set xBit s.xCompressed index (BitVec.ofInt 64 value)
    = some words) :
  s.setX index value = .ok { s with xCompressed := words }
  := bind_eq_ok.mpr ⟨words, orThrow_eq_ok.mpr h, rfl⟩

theorem setY_eq (h : PackedArray.set yBit s.yCompressed index (BitVec.ofInt 64 value)
    = some words) :
  s.setY index value = .ok { s with yCompressed := words }
  := bind_eq_ok.mpr ⟨words, orThrow_eq_ok.mpr h, rfl⟩

theorem setA_eq (h : PackedArray.set p.aBit s.aCompressed index (BitVec.ofInt 64 value)
    = some words) :
  s.setA p index value = .ok { s with aCompressed := words }
  := bind_eq_ok.mpr ⟨words, orThrow_eq_ok.mpr h, rfl⟩

theorem setB_eq (h : PackedArray.set p.bBit s.bCompressed index (BitVec.ofInt 64 value)
    = some words) :
  s.setB p index value = .ok { s with bCompressed := words }
  := bind_eq_ok.mpr ⟨words, orThrow_eq_ok.mpr h, rfl⟩

end Set

theorem growChunks_size (h : 0 < s.chunkSize ∧ s.chunkCnt ≤ s.chunkSize) :
  s.growChunks.chunkCnt < s.growChunks.chunkSize ∧ s.growChunks = { s with
    chunkSize := s.growChunks.chunkSize }
  := by
  unfold growChunks
  split
  · refine ⟨?_, rfl⟩
    change s.chunkCnt < s.chunkSize * 2
    omega
  · refine ⟨?_, rfl⟩
    omega

/-- What stays the same when the position of line `l` is pushed, and what is new. -/
structure Positioned (p : Param) (lines : List Line) (l : Line) (s s' : LineStore) : Prop where
  cnt : s'.lineCnt = s.lineCnt
  aCompressed : s'.aCompressed = s.aCompressed
  bCompressed : s'.bCompressed = s.bCompressed
  chunkX : s'.chunkX = s'.chunkOffset.map fun o => (lineNo (lines ++ [l]) o).x
  chunkY : s'.chunkY = s'.chunkOffset.map fun o => (lineNo (lines ++ [l]) o).y
  size : 0 < s'.chunkSize ∧ s'.chunkCnt ≤ s'.chunkSize
  first : s'.chunkOffset.head? = some 0
  sorted : s'.chunkOffset.Pairwise (· < ·)
  bound : ∀ o ∈ s'.chunkOffset, o < lines.length + 1
  xs : Deltas xBit s'.xCompressed s'.chunkOffset (fun i => (lineNo (lines ++ [l]) i).x)
    (lines.length + 1)
  ys : Deltas yBit s'.yCompressed s'.chunkOffset (fun i => (lineNo (lines ++ [l]) i).y)
    (lines.length + 1)

theorem map_lineNo {lines : List Line} {offsets : List ℕ} (h : ∀ o ∈ offsets, o < lines.length)
    (l : Line) (f : Line → ℤ) :
  offsets.map (fun o => f (lineNo lines o)) = offsets.map fun o => f (lineNo (lines ++ [l]) o)
  := by
  apply List.map_congr_left
  intro o ho
  rw [lineNo_append (h o ho)]

theorem Deltas.snoc {w : ℕ} {words : List (BitVec 64)} {offsets : List ℕ} {f : Line → ℤ}
    (h : Deltas w words offsets (fun i => f (lineNo lines i)) lines.length) (l : Line) :
  Deltas w words offsets (fun i => f (lineNo (lines ++ [l]) i)) lines.length
  := by
  apply h.congr
  intro i hi
  rw [lineNo_append hi]

theorem beginChunk_positioned (h : Stored p lines s) (hl : l.Valid p) :
  ∃ s', s.beginChunk l.x l.y = .ok s' ∧ Positioned p lines l s s'
  := by
  obtain ⟨hroom, hgrow⟩ := growChunks_size h.size
  obtain ⟨xw, hx, hxs⟩ := (Deltas.snoc h.xs l).sentinel (z := xFull)
    (by decide) (by decide) (by decide) (by decide)
  obtain ⟨yw, hy, hys⟩ := (Deltas.snoc h.ys l).sentinel (z := yFull)
    (by decide) (by decide) (by decide) (by decide)
  refine ⟨{ s with
    chunkX := s.chunkX ++ [l.x]
    chunkY := s.chunkY ++ [l.y]
    chunkOffset := s.chunkOffset ++ [s.lineCnt]
    chunkSize := s.growChunks.chunkSize
    xCompressed := xw
    yCompressed := yw }, ?_, ?_⟩
  · unfold beginChunk
    dsimp only
    rw [int32_eq hl.x_ge hl.x_lt, int32_eq hl.y_ge hl.y_lt]
    refine bind_eq_ok.mpr ⟨(), require_eq_ok.mpr hroom, ?_⟩
    rw [← h.cnt] at hx hy
    rw [hgrow]
    exact bind_eq_ok.mpr ⟨_, setX_eq hx, setY_eq hy⟩
  · have hlen := lineNo_length lines l
    refine ⟨rfl, rfl, rfl, ?_, ?_, ?_, ?_, ?_, ?_, ?_, ?_⟩
    · dsimp only
      rw [h.chunkX, map_lineNo h.bound l Line.x, h.cnt, List.map_append, List.map_singleton, hlen]
    · dsimp only
      rw [h.chunkY, map_lineNo h.bound l Line.y, h.cnt, List.map_append, List.map_singleton, hlen]
    · rw [hgrow] at hroom
      change s.chunkX.length < s.growChunks.chunkSize at hroom
      change _ ∧ (s.chunkX ++ [l.x]).length ≤ _
      rw [List.length_append, List.length_singleton]
      use by dsimp only; omega, hroom
    · dsimp only
      rw [List.head?_append]
      by_cases hnil : lines = []
      · rw [h.offset_eq_nil hnil, h.cnt, hnil]
        rfl
      · rw [h.first hnil]
        rfl
    · apply List.pairwise_append.mpr
      use h.sorted, by simp
      intro o ho o' ho'
      rw [List.mem_singleton.mp ho', h.cnt]
      apply h.bound o ho
    · intro o ho
      obtain ho | ho := List.mem_append.mp ho
      · apply lt_trans (h.bound o ho) (Nat.lt_succ_self _)
      · rw [List.mem_singleton.mp ho, h.cnt]
        apply Nat.lt_succ_self _
    · rw [h.cnt]
      apply hxs
    · rw [h.cnt]
      apply hys

theorem pushDelta_positioned (h : Stored p lines s) (hr : s.restarts l.x l.y = false)
    (hbefore : ∀ n, lines.length = n + 1 → (lineNo lines n).Before l) :
  ∃ s', s.pushDelta l.x l.y = .ok s' ∧ Positioned p lines l s s'
  := by
  unfold restarts at hr
  split at hr
  · cases hr
  · rename_i offset hoff
    have hmem : offset ∈ s.chunkOffset := List.mem_of_getElem? hoff
    have hlt := h.bound offset hmem
    obtain ⟨n, hn⟩ : ∃ n, lines.length = n + 1 := Nat.exists_eq_add_one.mpr (by omega)
    obtain ⟨hxp, hyp⟩ := h.prev n hn
    obtain ⟨hxlt, hyle⟩ := hbefore n hn
    simp only [decide_eq_false_iff_not, not_or, not_lt] at hr
    obtain ⟨-, hxd, hyd⟩ := hr
    have hlast : lineNo (lines ++ [l]) n = lineNo lines n := lineNo_append (by omega) l
    have hnew : lineNo (lines ++ [l]) (n + 1) = l := by
      rw [← hn]
      apply lineNo_length lines l
    have hxs := Deltas.snoc h.xs l
    have hys := Deltas.snoc h.ys l
    rw [hn] at hxs hys
    obtain ⟨xw, hx, hxs⟩ := hxs.push (by decide) (by decide)
      (by rw [hnew, hlast]; omega)
      (by rw [hnew, hlast, ← hxp]; exact lt_of_le_of_lt hxd (by decide))
    obtain ⟨yw, hy, hys⟩ := hys.push (by decide) (by decide)
      (by rw [hnew, hlast]; omega)
      (by rw [hnew, hlast, ← hyp]; exact lt_of_le_of_lt hyd (by decide))
    refine ⟨{ s with xCompressed := xw, yCompressed := yw }, ?_, ?_⟩
    · rw [hnew, hlast] at hx hy
      rw [← hn, ← h.cnt] at hx hy
      rw [← hxp] at hx
      rw [← hyp] at hy
      exact bind_eq_ok.mpr ⟨_, setX_eq hx, setY_eq hy⟩
    · refine ⟨rfl, rfl, rfl, ?_, ?_, h.size, ?_, h.sorted, ?_, ?_, ?_⟩
      · dsimp only
        rw [h.chunkX]
        apply map_lineNo h.bound l Line.x
      · dsimp only
        rw [h.chunkY]
        apply map_lineNo h.bound l Line.y
      · apply h.first
        rintro rfl
        cases hn
      · intro o ho
        apply lt_trans (h.bound o ho) (Nat.lt_succ_self _)
      · rw [hn]
        apply hxs
      · rw [hn]
        apply hys

theorem encodeB_range (hl : l.Valid p) :
  0 ≤ encodeB p l.b ∧ encodeB p l.b < 2 ^ p.bBit
  := by
  have hge := hl.b_ge
  have hlt := hl.b_lt
  have hpow : (2 : ℤ) ^ p.bBit = 2 * 2 ^ (p.bBit - 1) := by
    rw [← pow_succ']
    congr 1
  have hpos : (0 : ℤ) < 2 ^ (p.bBit - 1) := by positivity
  unfold encodeB
  rw [hpow]
  split
  · omega
  · omega

/-- A line is pushed. -/
theorem pushLine_stored (h : Stored p lines s) (hl : l.Valid p)
    (hbefore : ∀ n, lines.length = n + 1 → (lineNo lines n).Before l) :
  ∃ s', pushLine p s l = .ok s' ∧ Stored p (lines ++ [l]) s'
  := by
  have hpos : ∃ s', s.pushPosition l.x l.y = .ok s' ∧ Positioned p lines l s s' := by
    unfold pushPosition
    cases hr : s.restarts l.x l.y with
    | true => apply beginChunk_positioned h hl
    | false => apply pushDelta_positioned h hr hbefore
  obtain ⟨s₁, h₁, hp⟩ := hpos
  have ha := h.as
  rw [← hp.aCompressed] at ha
  have hb := h.bs
  rw [← hp.bCompressed] at hb
  have hwidth := p.width
  have ha64 : p.aBit ≤ 64 := by
    unfold Param.aBit
    omega
  have hb64 : p.bBit ≤ 64 := by
    unfold Param.bBit
    omega
  obtain ⟨hb₀, hb₁⟩ := encodeB_range hl
  obtain ⟨aw, hsa, ha⟩ := ha.set p.slopeBit_pos ha64 (getLsbD_ofInt ha64 hl.a_ge hl.a_lt)
  obtain ⟨bw, hsb, hb⟩ := hb.set (by unfold Param.bBit; omega) hb64 (getLsbD_ofInt hb64 hb₀ hb₁)
  rw [List.length_map] at hsa hsb
  refine ⟨{ s₁ with
    aCompressed := aw
    bCompressed := bw
    xPrev := l.x
    yPrev := l.y
    lineCnt := s₁.lineCnt + 1 }, ?_, ?_⟩
  · unfold pushLine linePushBack
    dsimp only
    rw [Int.mul_tdiv_cancel _ (by decide), add_sub_cancel_right, Int.mul_tdiv_cancel _ (by decide),
      h₁, int32_eq hl.x_ge hl.x_lt, int32_eq hl.y_ge hl.y_lt]
    rw [← h.cnt, ← hp.cnt] at hsa hsb
    refine bind_eq_ok.mpr ⟨s₁, rfl, ?_⟩
    refine bind_eq_ok.mpr ⟨{ s₁ with aCompressed := aw }, setA_eq hsa, ?_⟩
    exact bind_eq_ok.mpr ⟨{ s₁ with aCompressed := aw, bCompressed := bw }, setB_eq hsb, rfl⟩
  · refine {
      cnt := ?_, chunkX := hp.chunkX, chunkY := hp.chunkY, size := hp.size
      first := fun _ => hp.first, sorted := hp.sorted, bound := ?_, prev := ?_
      xs := ?_, ys := ?_, as := ?_, bs := ?_ }
    · dsimp only
      rw [hp.cnt, h.cnt, List.length_append, List.length_singleton]
    · rw [List.length_append, List.length_singleton]
      apply hp.bound
    · intro n hn
      rw [List.length_append, List.length_singleton] at hn
      obtain rfl : lines.length = n := by omega
      rw [lineNo_length]
      exact ⟨rfl, rfl⟩
    · rw [List.length_append, List.length_singleton]
      apply hp.xs
    · rw [List.length_append, List.length_singleton]
      apply hp.ys
    · rw [List.map_append, List.map_singleton]
      apply ha
    · rw [List.map_append, List.map_singleton]
      apply hb

/-- A closed store of the lines, whose chunks begin at `offsets`. -/
structure Closed (p : Param) (lines : List Line) (offsets : List ℕ) (s : LineStore) : Prop where
  chunkX : s.chunkX = offsets.map fun o => (lineNo lines o).x
  chunkY : s.chunkY = offsets.map fun o => (lineNo lines o).y
  chunkOffset : s.chunkOffset = offsets ++ [lines.length]
  first : offsets.head? = some 0
  sorted : (offsets ++ [lines.length]).Pairwise (· < ·)
  xs : Deltas xBit s.xCompressed (offsets ++ [lines.length]) (fun i => (lineNo lines i).x)
    (lines.length + 1)
  ys : Deltas yBit s.yCompressed (offsets ++ [lines.length]) (fun i => (lineNo lines i).y)
    (lines.length + 1)
  as : PackedArray.Holds p.aBit s.aCompressed (lines.map fun l => BitVec.ofInt 64 l.a)
  bs : PackedArray.Holds p.bBit s.bCompressed
    (lines.map fun l => BitVec.ofInt 64 (encodeB p l.b))

theorem close_closed (h : Stored p lines s) (hne : lines ≠ []) :
  ∃ s', s.close = .ok s' ∧ Closed p lines s.chunkOffset s'
  := by
  obtain ⟨xw, hx, hxs⟩ := h.xs.sentinel (z := xFull)
    (by decide) (by decide) (by decide) (by decide)
  obtain ⟨yw, hy, hys⟩ := h.ys.sentinel (z := yFull)
    (by decide) (by decide) (by decide) (by decide)
  rw [← h.cnt] at hx hy
  have hsize : 0 < ({ s with xCompressed := xw, yCompressed := yw } : LineStore).chunkSize ∧
      ({ s with xCompressed := xw, yCompressed := yw } : LineStore).chunkCnt
        ≤ ({ s with xCompressed := xw, yCompressed := yw } : LineStore).chunkSize := h.size
  obtain ⟨hroom, hgrow⟩ := growChunks_size hsize
  refine ⟨{ s with
    chunkOffset := s.chunkOffset ++ [s.lineCnt]
    chunkSize :=
      ({ s with xCompressed := xw, yCompressed := yw } : LineStore).growChunks.chunkSize
    xCompressed := xw
    yCompressed := yw }, ?_, ?_⟩
  · refine bind_eq_ok.mpr ⟨_, setX_eq hx, ?_⟩
    refine bind_eq_ok.mpr ⟨_, setY_eq hy, ?_⟩
    refine bind_eq_ok.mpr ⟨(), require_eq_ok.mpr hroom, ?_⟩
    rw [hgrow]
    rfl
  · refine ⟨h.chunkX, h.chunkY, ?_, h.first hne, ?_, hxs, hys, h.as, h.bs⟩
    · dsimp only
      rw [h.cnt]
    · apply List.pairwise_append.mpr
      use h.sorted, by simp
      intro o ho o' ho'
      rw [List.mem_singleton.mp ho']
      apply h.bound o ho

/-- Lines are pushed one after another. -/
theorem pushAll_stored (rest : List Line) :
  ∀ {lines : List Line} {s : LineStore}, Stored p lines s → (∀ l ∈ rest, l.Valid p) →
    (lines ++ rest).Pairwise Line.Before →
    ∃ s', rest.foldlM (pushLine p) s = .ok s' ∧ Stored p (lines ++ rest) s'
  := by
  induction rest with
  | nil =>
      intro lines s h _ _
      rw [List.append_nil]
      exact ⟨s, rfl, h⟩
  | cons l rest ih =>
      intro lines s h hvalid hpair
      have hlast : ∀ n, lines.length = n + 1 → (lineNo lines n).Before l := by
        intro n hn
        have hlt : n < lines.length := by omega
        apply (List.pairwise_append.mp hpair).2.2 _ _ l List.mem_cons_self
        unfold lineNo
        rw [List.getElem?_eq_getElem hlt]
        apply List.getElem_mem hlt
      obtain ⟨s₁, h₁, hs₁⟩ := pushLine_stored h (hvalid l List.mem_cons_self) hlast
      rw [List.append_cons] at hpair ⊢
      obtain ⟨s', h', hs'⟩ := ih hs₁ (fun l' hl' => hvalid l' (List.mem_cons_of_mem l hl')) hpair
      refine ⟨s', ?_, hs'⟩
      rw [List.foldlM_cons]
      apply bind_eq_ok.mpr ⟨s₁, h₁, h'⟩

/-! ### Lookups -/

/-- The binary search: it stops at a chunk that does not begin after the address while the
next one does. -/
theorem searchChunk_eq {lba : ℤ} {fuel : ℕ} :
  ∀ {low high : ℕ}, high - low ≤ fuel → low < high → high ≤ s.chunkX.length →
    (∀ x, s.chunkX[low]? = some x → x ≤ lba) → (∀ x, s.chunkX[high]? = some x → lba < x) →
    ∃ k, s.searchChunk lba fuel low high = .ok k ∧ k < s.chunkX.length
      ∧ (∀ x, s.chunkX[k]? = some x → x ≤ lba) ∧ ∀ x, s.chunkX[k + 1]? = some x → lba < x
  := by
  induction fuel with
  | zero =>
      intro low high hfuel hlt
      omega
  | succ fuel ih =>
      intro low high hfuel hlt hle hlow hhigh
      by_cases hgap : high - low > 1
      · have hmid : low + (high - low) / 2 < s.chunkX.length := by omega
        have hx := List.getElem?_eq_getElem hmid
        by_cases hge : lba ≥ s.chunkX[low + (high - low) / 2]
        · obtain ⟨k, hk, hres⟩ := @ih (low + (high - low) / 2) high (by omega) (by omega) hle
            (by intro x hx'; rw [hx] at hx'; cases hx'; exact hge) hhigh
          refine ⟨k, ?_, hres⟩
          rw [searchChunk, if_pos hgap]
          refine bind_eq_ok.mpr ⟨_, orThrow_eq_ok.mpr hx, ?_⟩
          rw [if_pos hge]
          apply hk
        · obtain ⟨k, hk, hres⟩ := @ih low (low + (high - low) / 2) (by omega) (by omega)
            (by omega) hlow (by intro x hx'; rw [hx] at hx'; cases hx'; omega)
          refine ⟨k, ?_, hres⟩
          rw [searchChunk, if_pos hgap]
          refine bind_eq_ok.mpr ⟨_, orThrow_eq_ok.mpr hx, ?_⟩
          rw [if_neg hge]
          apply hk
      · obtain rfl : high = low + 1 := by omega
        refine ⟨low, ?_, by omega, hlow, hhigh⟩
        rw [searchChunk, if_neg hgap]

/-- The walk along a chunk: it stops at a line that does not begin after the address while the
next one of the chunk does. -/
theorem walk_eq {lba : ℤ} {offsets : List ℕ} (h : Closed p lines offsets s) {n : ℕ} :
  ∀ {i stop : ℕ}, i + 1 + n = stop → stop ≤ lines.length →
    (∀ j, i < j → j < stop → j ∉ offsets ++ [lines.length]) → (lineNo lines i).x ≤ lba →
    ∃ j, s.walk lba n (lineNo lines i).x (lineNo lines i).y (i + 1)
        = .ok ((lineNo lines j).x, (lineNo lines j).y, j + 1)
      ∧ j < stop ∧ (lineNo lines j).x ≤ lba
      ∧ (j + 1 = stop ∨ lba < (lineNo lines (j + 1)).x)
  := by
  induction n with
  | zero =>
      intro i stop hstop _ _ hx
      use i, rfl, by omega, hx, .inl (by omega)
  | succ n ih =>
      intro i stop hstop hle hoff hx
      have hoff' := hoff (i + 1) (by omega) (by omega)
      obtain ⟨dx, hdx, hdx'⟩ := h.xs.get (by decide) (by decide) (by omega) hoff'
      obtain ⟨dy, hdy, hdy'⟩ := h.ys.get (by decide) (by decide) (by omega) hoff'
      have hxs : (lineNo lines i).x + dx.toNat = (lineNo lines (i + 1)).x := by omega
      have hys : (lineNo lines i).y + dy.toNat = (lineNo lines (i + 1)).y := by omega
      by_cases hge : (lineNo lines (i + 1)).x ≤ lba
      · obtain ⟨j, hwalk, hj⟩ := ih (i := i + 1) (by omega) hle
          (fun j hj hj' => hoff j (by omega) hj') hge
        refine ⟨j, ?_, hj⟩
        refine bind_eq_ok.mpr ⟨dx, orThrow_eq_ok.mpr hdx, ?_⟩
        rw [if_pos (by omega)]
        refine bind_eq_ok.mpr ⟨dy, orThrow_eq_ok.mpr hdy, ?_⟩
        rw [hxs, hys]
        apply hwalk
      · refine ⟨i, ?_, by omega, hx, .inr (by omega)⟩
        refine bind_eq_ok.mpr ⟨dx, orThrow_eq_ok.mpr hdx, ?_⟩
        rw [if_neg (by omega)]

/-- Between the beginnings of two chunks that follow each other no chunk begins. -/
theorem Closed.notMem {offsets : List ℕ} (h : Closed p lines offsets s) {k o o' j : ℕ}
    (ho : (offsets ++ [lines.length])[k]? = some o)
    (ho' : (offsets ++ [lines.length])[k + 1]? = some o') (hj : o < j) (hj' : j < o') :
  j ∉ offsets ++ [lines.length]
  := by
  intro hmem
  obtain ⟨m, hm, hmj⟩ := List.mem_iff_getElem.mp hmem
  obtain ⟨hk, hko⟩ := List.getElem?_eq_some_iff.mp ho
  obtain ⟨hk', hko'⟩ := List.getElem?_eq_some_iff.mp ho'
  have hlt := List.pairwise_iff_getElem.mp h.sorted
  rcases lt_trichotomy m k with hmk | rfl | hmk
  · have := hlt m k hm hk hmk
    omega
  · omega
  · rcases Nat.lt_or_ge (k + 1) m with hmk' | hmk'
    · have := hlt (k + 1) m hk' hm hmk'
      omega
    · obtain rfl : m = k + 1 := by omega
      omega

/-- The position where a lookup stops. -/
theorem locate_eq {lba : ℤ} {offsets : List ℕ} (h : Closed p lines offsets s)
    (hpair : lines.Pairwise Line.Before) (hfirst : (lineNo lines 0).x ≤ lba) :
  ∃ j, s.locate lba = .ok ((lineNo lines j).x, (lineNo lines j).y, j + 1) ∧ j < lines.length
    ∧ (lineNo lines j).x ≤ lba
    ∧ ∀ i, j < i → i < lines.length → lba < (lineNo lines i).x
  := by
  have hlen : s.chunkX.length = offsets.length := by
    rw [h.chunkX, List.length_map]
  have hoff : ∀ {k o : ℕ}, offsets[k]? = some o →
      s.chunkX[k]? = some (lineNo lines o).x ∧ s.chunkY[k]? = some (lineNo lines o).y := by
    intro k o ho
    rw [h.chunkX, h.chunkY, List.getElem?_map, List.getElem?_map, ho]
    exact ⟨rfl, rfl⟩
  have hzero : offsets[0]? = some 0 := by
    rw [← List.head?_eq_getElem?]
    apply h.first
  have hpos : 0 < offsets.length := (List.getElem?_eq_some_iff.mp hzero).1
  obtain ⟨k, hsearch, hk, hlow, hhigh⟩ := @searchChunk_eq s lba s.chunkCnt 0 s.chunkCnt
    (Nat.sub_le _ _) (by rw [chunkCnt, hlen]; exact hpos) le_rfl
    (by intro x hx; rw [(hoff hzero).1] at hx; cases hx; exact hfirst)
    (by intro x hx; rw [chunkCnt, List.getElem?_eq_none le_rfl] at hx; cases hx)
  rw [hlen] at hk
  obtain ⟨o, ho⟩ : ∃ o, offsets[k]? = some o := ⟨_, List.getElem?_eq_getElem hk⟩
  have ho₁ : (offsets ++ [lines.length])[k]? = some o := by
    rw [List.getElem?_append_left hk]
    apply ho
  obtain ⟨o', ho'⟩ : ∃ o', (offsets ++ [lines.length])[k + 1]? = some o'
    := ⟨_, List.getElem?_eq_getElem (by rw [List.length_append]; exact Nat.succ_lt_succ hk)⟩
  have hsorted := List.pairwise_iff_getElem.mp h.sorted
  have hoo' : o < o' := by
    obtain ⟨hk₁, rfl⟩ := List.getElem?_eq_some_iff.mp ho₁
    obtain ⟨hk₂, rfl⟩ := List.getElem?_eq_some_iff.mp ho'
    apply hsorted _ _ hk₁ hk₂ (Nat.lt_succ_self k)
  have hole : o' ≤ lines.length := by
    obtain ho' | ho' := List.mem_append.mp (List.mem_of_getElem? ho')
    · apply le_of_lt ((List.pairwise_append.mp h.sorted).2.2 _ ho' _ (List.mem_singleton_self _))
    · apply le_of_eq (List.mem_singleton.mp ho')
  obtain ⟨j, hwalk, hj, hjx, hnext⟩ := @walk_eq p lines s lba offsets h (o' - (o + 1)) o o'
    (by omega) hole (fun j hj hj' => h.notMem ho₁ ho' hj hj') (hlow _ (hoff ho).1)
  refine ⟨j, ?_, by omega, hjx, ?_⟩
  · refine bind_eq_ok.mpr ⟨k, hsearch, ?_⟩
    refine bind_eq_ok.mpr ⟨_, orThrow_eq_ok.mpr (hoff ho).1, ?_⟩
    refine bind_eq_ok.mpr ⟨_, orThrow_eq_ok.mpr (hoff ho).2, ?_⟩
    refine bind_eq_ok.mpr ⟨o, orThrow_eq_ok.mpr (by rw [h.chunkOffset]; exact ho₁), ?_⟩
    apply bind_eq_ok.mpr ⟨o', orThrow_eq_ok.mpr (by rw [h.chunkOffset]; exact ho'), hwalk⟩
  · have hnextx : j + 1 < lines.length → lba < (lineNo lines (j + 1)).x := by
      intro hlt
      obtain rfl | hnext := hnext
      · have ho'' : offsets[k + 1]? = some (j + 1) := by
          rw [List.getElem?_append] at ho'
          split at ho'
          · apply ho'
          · rename_i hge
            have hlast : k + 1 - offsets.length = 0 := by omega
            rw [hlast, List.getElem?_cons_zero, Option.some.injEq] at ho'
            omega
        apply hhigh _ (hoff ho'').1
      · apply hnext
    intro i hi hlt
    apply lt_of_lt_of_le (hnextx (by omega))
    obtain rfl | hi := Nat.eq_or_lt_of_le (Nat.succ_le_of_lt hi)
    · apply le_rfl
    · apply le_of_lt
      have hlt' : j + 1 < lines.length := by omega
      unfold lineNo
      rw [List.getElem?_eq_getElem hlt, List.getElem?_eq_getElem hlt']
      apply (List.pairwise_iff_getElem.mp hpair _ _ hlt' hlt hi).1

/-- The top bit of a field tells whether its value is in the upper half. -/
theorem getLsbD_top {v : BitVec 64} {n : ℕ} (h : v.toNat < 2 * 2 ^ n) :
  v.getLsbD n = decide (2 ^ n ≤ v.toNat)
  := by
  rw [← BitVec.testBit_toNat, Nat.testBit_eq_decide_div_mod_eq]
  have hpos : 0 < 2 ^ n := Nat.two_pow_pos n
  by_cases hle : 2 ^ n ≤ v.toNat
  · have hdiv : v.toNat / 2 ^ n = 1 := by
      apply Nat.div_eq_of_lt_le
      · rw [Nat.one_mul]
        apply hle
      · apply h
    simp [hdiv, hle]
  · rw [Nat.div_eq_of_lt (by omega)]
    simp [hle]

/-- The low bits of a field. -/
theorem toNat_and_low {v : BitVec 64} {n : ℕ} (hn : n < 64) :
  (v &&& (BitVec.twoPow 64 n - 1)).toNat = v.toNat % 2 ^ n
  := by
  have htwo := BitVec.toNat_twoPow_of_lt hn
  have hsub : (BitVec.twoPow 64 n - 1).toNat = 2 ^ n - 1 := by
    rw [BitVec.toNat_sub_of_le, htwo]
    · rfl
    · rw [BitVec.le_def, htwo]
      apply Nat.two_pow_pos n
  rw [BitVec.toNat_and, hsub, Nat.and_two_pow_sub_one_eq_mod]

/-- The field of an intercept is read back. -/
theorem decodeB_encodeB (hl : l.Valid p) :
  decodeB p (BitVec.ofInt 64 (encodeB p l.b)) = l.b
  := by
  have hwidth := p.width
  have hb64 : p.bBit ≤ 64 := by
    unfold Param.bBit
    omega
  have hb0 : p.bBit - 1 < 64 := by omega
  obtain ⟨h₀, h₁⟩ := encodeB_range hl
  have hnat := toNat_ofInt hb64 h₀ h₁
  have hge := hl.b_ge
  have hlt := hl.b_lt
  have hpow : (2 : ℤ) ^ p.bBit = 2 * 2 ^ (p.bBit - 1) := by
    rw [← pow_succ']
    congr 1
  have hone : (1 : BitVec 64) <<< (p.bBit - 1) = BitVec.twoPow 64 (p.bBit - 1)
    := (BitVec.twoPow_eq 64 _).symm
  have htwo := BitVec.toNat_twoPow_of_lt hb0
  have hpos : 0 < 2 ^ (p.bBit - 1) := Nat.two_pow_pos _
  have hcast : ((2 ^ (p.bBit - 1) : ℕ) : ℤ) = 2 ^ (p.bBit - 1) := by norm_cast
  generalize hv : BitVec.ofInt 64 (encodeB p l.b) = v at hnat
  have hbit : v.getLsbD (p.bBit - 1) = decide (2 ^ (p.bBit - 1) ≤ v.toNat) := by
    apply getLsbD_top
    zify
    rw [hnat, ← hpow]
    apply h₁
  have hne : BitVec.twoPow 64 (p.bBit - 1) ≠ 0 := by
    intro heq
    rw [heq] at htwo
    exact absurd htwo.symm hpos.ne'
  unfold decodeB
  rw [hone, BitVec.and_twoPow, hbit, toNat_and_low hb0]
  unfold encodeB at hnat
  by_cases hneg : l.b < 0
  · rw [if_pos hneg] at hnat
    have hle : 2 ^ (p.bBit - 1) ≤ v.toNat := by
      zify
      omega
    have hmod : v.toNat % 2 ^ (p.bBit - 1) = v.toNat - 2 ^ (p.bBit - 1) := by
      rw [Nat.mod_eq_sub_mod hle]
      apply Nat.mod_eq_of_lt
      omega
    rw [if_pos (by simpa [hle] using hne), hmod]
    omega
  · rw [if_neg hneg] at hnat
    have hle : ¬ 2 ^ (p.bBit - 1) ≤ v.toNat := by
      zify
      omega
    rw [if_neg (by simp [hle])]
    apply hnat

/-- The line that a lookup uses. -/
theorem lineAt_eq {lba : ℤ} {offsets : List ℕ} (h : Closed p lines offsets s)
    (hvalid : ∀ l ∈ lines, l.Valid p) {j : ℕ} (hj : j < lines.length)
    (hlocate : s.locate lba = .ok ((lineNo lines j).x, (lineNo lines j).y, j + 1)) :
  s.lineAt p lba = .ok (lineNo lines j)
  := by
  have hwidth := p.width
  have ha64 : p.aBit ≤ 64 := by
    unfold Param.aBit
    omega
  have hb64 : p.bBit ≤ 64 := by
    unfold Param.bBit
    omega
  have hline : lineNo lines j = lines[j] := by
    unfold lineNo
    rw [List.getElem?_eq_getElem hj]
    rfl
  have hl : (lineNo lines j).Valid p := by
    rw [hline]
    apply hvalid _ (List.getElem_mem hj)
  have ha := h.as.get p.slopeBit_pos ha64 (i := j) (by rw [List.length_map]; exact hj)
  have hb := h.bs.get (by unfold Param.bBit; omega) hb64 (i := j)
    (by rw [List.length_map]; exact hj)
  rw [List.getElem_map, ← hline] at ha hb
  refine bind_eq_ok.mpr ⟨_, hlocate, ?_⟩
  refine bind_eq_ok.mpr ⟨_, orThrow_eq_ok.mpr ha, ?_⟩
  refine bind_eq_ok.mpr ⟨_, orThrow_eq_ok.mpr hb, ?_⟩
  rw [decodeB_encodeB hl, toNat_ofInt ha64 hl.a_ge hl.a_lt]
  rfl

end LineStore

open LineStore

/-- Lines are pushed and the store is closed: a lookup of an address from the first line on
stops at the last line that does not begin after it, and reads that line. -/
theorem lineAt_store (p : Param) (lines : List Line) (lba : ℤ) (hvalid : ∀ l ∈ lines, l.Valid p)
    (hpair : lines.Pairwise Line.Before) (hfirst : ∃ l, lines.head? = some l ∧ l.x ≤ lba) :
  ∃ s i l, store p lines = .ok s ∧ lines[i]? = some l ∧ l.x ≤ lba
    ∧ (∀ j l', i < j → lines[j]? = some l' → lba < l'.x)
    ∧ s.locate lba = .ok (l.x, l.y, i + 1) ∧ s.lineAt p lba = .ok l
  := by
  obtain ⟨l₀, hl₀, hx₀⟩ := hfirst
  have hne : lines ≠ [] := by
    rintro rfl
    cases hl₀
  obtain ⟨s₁, h₁, hs₁⟩ := pushAll_stored lines (stored_new p) hvalid hpair
  rw [List.nil_append] at hs₁
  obtain ⟨s, hs, hclosed⟩ := close_closed hs₁ hne
  have hzero : (lineNo lines 0).x ≤ lba := by
    unfold lineNo
    rw [← List.head?_eq_getElem?, hl₀]
    apply hx₀
  obtain ⟨j, hlocate, hj, hjx, hlater⟩ := locate_eq hclosed hpair hzero
  have hline : lines[j]? = some (lineNo lines j) := by
    unfold lineNo
    rw [List.getElem?_eq_getElem hj]
    rfl
  refine ⟨s, j, lineNo lines j, ?_, hline, hjx, ?_, hlocate, lineAt_eq hclosed hvalid hj hlocate⟩
  · apply bind_eq_ok.mpr ⟨s₁, h₁, hs⟩
  · intro i l' hi hl'
    obtain ⟨hlt, rfl⟩ := List.getElem?_eq_some_iff.mp hl'
    have hlater := hlater i hi hlt
    unfold lineNo at hlater
    rw [List.getElem?_eq_getElem hlt] at hlater
    apply hlater

/-- The smallest range, with intercepts of 15 bits. -/
def smallRange : Param := ⟨7, 5, by decide, by decide⟩

/-- Lines with a small difference, with a large difference of addresses, with a large
difference of pages, and with the least and the largest intercept. -/
def threeChunks : List Line :=
  [⟨3, 0, 3, -7⟩, ⟨8, 1, 127, 20⟩, ⟨7000, 1, 0, -16384⟩, ⟨7001, 900, 64, 16383⟩, ⟨7040, 910, 1, -1⟩]

theorem lineAt_store_threeChunks :
  ∃ s i l, store smallRange threeChunks = .ok s ∧ threeChunks[i]? = some l ∧ l.x ≤ 7030
    ∧ (∀ j l', i < j → threeChunks[j]? = some l' → 7030 < l'.x)
    ∧ s.locate 7030 = .ok (l.x, l.y, i + 1) ∧ s.lineAt smallRange 7030 = .ok l
  := by
  apply lineAt_store
  · intro l hl
    simp only [threeChunks, List.mem_cons, List.not_mem_nil, or_false] at hl
    rcases hl with rfl | rfl | rfl | rfl | rfl
    all_goals
      constructor
      all_goals decide
  · simp [threeChunks, Line.Before]
  · exact ⟨_, rfl, by decide⟩

end Plr

end AppL
