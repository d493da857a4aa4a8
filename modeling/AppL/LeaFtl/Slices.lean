import AppL.LeaFtl.Mapping

/-!
# The slices of a buffer

The addresses of a group are cut into slices that follow each other and have every address
once.  A slice is accurate when it has a constant stride.
-/

namespace AppL

open Transition

namespace LeaFtl

/-- Slices that follow each other, from `a` up to `b`. -/
def Tiles : ℕ → List Slice → ℕ → Prop
  | a, [], b => a = b
  | a, s :: l, b => s.start = a ∧ 0 < s.length ∧ Tiles (a + s.length) l b

theorem Tiles.append {l l' : List Slice} {b c : ℕ} :
  ∀ {a : ℕ}, Tiles a l b → Tiles b l' c → Tiles a (l ++ l') c
  := by
  induction l with
  | nil =>
      rintro a rfl h'
      apply h'
  | cons s l ih =>
      rintro a ⟨hstart, hpos, h⟩ h'
      use hstart, hpos, ih h h'

/-- An accurate slice has the stride `interval`. -/
def Slice.Strided (interval : List ℕ) (s : Slice) : Prop :=
  s.isacc = true → 3 ≤ s.length ∧ s.interval ≠ uint32Max
    ∧ ∀ j, s.start ≤ j → j + 1 < s.start + s.length → interval[j]? = some s.interval

/-- The variables of the loop when `n + 1` addresses have been taken; the slices so far end
at `b`. -/
structure Cut.Inv (interval : List ℕ) (n b : ℕ) (c : Cut) : Prop where
  tiles : Tiles 0 c.slices b
  app : c.appStart = none ∧ c.appLength = 0 ∨ c.appStart = some b ∧ 0 < c.appLength
  accStart : c.accStart = some (b + c.appLength)
  accPos : 0 < c.accLength
  total : b + c.appLength + c.accLength = n + 1
  stride : ∀ j, b + c.appLength ≤ j → j < n → interval[j]? = some c.accInterval
  single : c.accLength = 1 → c.accInterval = uint32Max
  several : c.accLength ≠ 1 → c.accInterval ≠ uint32Max
  strided : ∀ s ∈ c.slices, s.Strided interval

section Cut

variable {interval : List ℕ} {n b : ℕ} {c : Cut}

theorem Cut.Inv.appSlice (h : c.Inv interval n b) :
  Tiles b c.appSlice (b + c.appLength) ∧ ∀ s ∈ c.appSlice, s.Strided interval
  := by
  unfold Cut.appSlice
  rcases h.app with ⟨hnone, hzero⟩ | ⟨hsome, hpos⟩
  · rw [hnone, hzero]
    use rfl, by simp
  · rw [hsome]
    use ⟨rfl, hpos, rfl⟩
    intro s hs hacc
    rw [List.mem_singleton.mp hs] at hacc
    cases hacc

theorem Cut.Inv.accSlice (h : c.Inv interval n b) (hlong : 3 ≤ c.accLength) :
  Tiles (b + c.appLength) c.accSlice (n + 1) ∧ ∀ s ∈ c.accSlice, s.Strided interval
  := by
  have htotal := h.total
  unfold Cut.accSlice
  rw [h.accStart]
  use ⟨rfl, h.accPos, htotal⟩
  intro s hs _
  rw [List.mem_singleton.mp hs]
  use hlong, h.several (by omega)
  intro j hj hj'
  dsimp only at hj hj'
  apply h.stride j hj (by omega)

/-- A short accurate slice goes to the approximate one. -/
theorem Cut.Inv.merge (h : c.Inv interval n b) :
  c.merge.appStart = some b ∧ c.merge.appLength = n + 1 - b ∧ 0 < c.merge.appLength
  := by
  have htotal := h.total
  have hpos := h.accPos
  unfold Cut.merge
  dsimp only
  refine ⟨?_, by omega, by omega⟩
  rcases h.app with ⟨hnone, hzero⟩ | ⟨hsome, -⟩
  · rw [hnone, h.accStart, hzero]
    rfl
  · rw [hsome]

/-- The first turn. -/
theorem Cut.inv_first {v : ℕ} (hv : interval[0]? = some v) (hne : v ≠ uint32Max) :
  (Cut.start.turn interval 1).Inv interval 1 0
  where
    tiles := rfl
    app := .inl ⟨rfl, rfl⟩
    accStart := rfl
    accPos := by simp [Cut.turn, Cut.start]
    total := rfl
    stride := by
      intro j _ hj
      obtain rfl : j = 0 := by omega
      simp [Cut.turn, Cut.start, hv]
    single := by simp [Cut.turn, Cut.start]
    several := by simp [Cut.turn, Cut.start, hv, hne]
    strided := by simp [Cut.turn, Cut.start]

/-- A further turn. -/
theorem Cut.Inv.turn (h : c.Inv interval n b) {v : ℕ} (hv : interval[n]? = some v)
    (hne : v ≠ uint32Max) :
  ∃ b', (c.turn interval (n + 1)).Inv interval (n + 1) b'
  := by
  have htotal := h.total
  have hget : interval[n + 1 - 1]?.getD 0 = v := by
    rw [Nat.add_sub_cancel, hv]
    rfl
  unfold Cut.turn
  rw [h.accStart, hget]
  dsimp only
  split
  · rename_i heq
    refine ⟨b, h.tiles, h.app, rfl, Nat.succ_pos _, ?_, ?_, ?_, ?_, h.strided⟩
    · dsimp only
      omega
    · intro j hj hjn
      dsimp only at hj ⊢
      rcases Nat.lt_or_ge j n with hlt | hge
      · apply h.stride j hj hlt
      · obtain rfl : j = n := by omega
        rw [hv, heq]
    · intro hone
      have hpos := h.accPos
      dsimp only at hone
      omega
    · intro _
      dsimp only
      rw [heq]
      apply hne
  · split
    · obtain ⟨hstart, hlength, hpos⟩ := h.merge
      refine ⟨b, h.tiles, .inr ⟨hstart, hpos⟩, ?_, Nat.one_pos, ?_, ?_, fun _ => rfl, ?_, h.strided⟩
      · dsimp only
        congr 1
        omega
      · dsimp only
        omega
      · intro j hj hjn
        dsimp only at hj
        omega
      · intro hone
        exact absurd rfl hone
    · rename_i hlong
      obtain ⟨happ, happ'⟩ := h.appSlice
      obtain ⟨hacc, hacc'⟩ := h.accSlice (by omega)
      refine ⟨n + 1, (h.tiles.append happ).append hacc, .inl ⟨rfl, rfl⟩, rfl, Nat.one_pos, rfl, ?_,
        fun _ => rfl, ?_, ?_⟩
      · intro j hj hjn
        dsimp only at hj
        omega
      · intro hone
        exact absurd rfl hone
      · intro s hs
        simp only [List.mem_append] at hs
        rcases hs with (hs | hs) | hs
        · apply h.strided s hs
        · apply happ' s hs
        · apply hacc' s hs

/-- After the loop. -/
theorem Cut.Inv.finish (h : c.Inv interval n b) :
  Tiles 0 c.finish (n + 1) ∧ ∀ s ∈ c.finish, s.Strided interval
  := by
  have htotal := h.total
  have hpos := h.accPos
  unfold Cut.finish
  dsimp only
  split
  · obtain ⟨hstart, hlength, hpos'⟩ := h.merge
    have hslices : c.merge.slices = c.slices := rfl
    simp only [Cut.appSlice, hstart, Cut.accSlice, hslices, List.append_nil]
    constructor
    · refine h.tiles.append ⟨rfl, hpos', ?_⟩
      change b + c.merge.appLength = n + 1
      omega
    · intro s hs
      obtain hs | hs := List.mem_append.mp hs
      · apply h.strided s hs
      · intro hacc
        rw [List.mem_singleton.mp hs] at hacc
        cases hacc
  · obtain ⟨happ, happ'⟩ := h.appSlice
    obtain ⟨hacc, hacc'⟩ := h.accSlice (by omega)
    use (h.tiles.append happ).append hacc
    intro s hs
    simp only [List.mem_append] at hs
    rcases hs with (hs | hs) | hs
    · apply h.strided s hs
    · apply happ' s hs
    · apply hacc' s hs

/-- The loop. -/
theorem Cut.inv_loop (hne : ∀ v ∈ interval, v ≠ uint32Max) :
  n + 1 ≤ interval.length →
    ∃ b, ((List.range' 1 (n + 1)).foldl (fun c i => c.turn interval i) Cut.start).Inv interval (n + 1) b
  := by
  induction n with
  | zero =>
      intro hlen
      have hv := List.getElem?_eq_getElem hlen
      exact ⟨0, Cut.inv_first hv (hne _ (List.getElem_mem _))⟩
  | succ n ih =>
      intro hlen
      obtain ⟨b, hb⟩ := ih (by omega)
      have hlt : n + 1 < interval.length := hlen
      have hv := List.getElem?_eq_getElem hlt
      rw [List.range'_1_concat, List.foldl_append]
      have heq : 1 + (n + 1) = n + 1 + 1 := Nat.add_comm _ _
      rw [heq]
      apply hb.turn hv (hne _ (List.getElem_mem hlt))

end Cut

/-- The slices have every address once, and the accurate ones have a constant stride. -/
theorem leaSlices_tiles {interval : List ℕ} {size : ℕ} (hlen : interval.length + 1 = size)
    (hne : ∀ v ∈ interval, v ≠ uint32Max) :
  Tiles 0 (leaSlices interval size) size ∧ ∀ s ∈ leaSlices interval size, s.Strided interval
  := by
  unfold leaSlices
  split
  · rename_i hone
    use ⟨rfl, Nat.one_pos, hone.symm⟩
    intro s hs hacc
    rw [List.mem_singleton.mp hs] at hacc
    cases hacc
  · rename_i hone
    obtain ⟨n, rfl⟩ : ∃ n, size = n + 2 := ⟨size - 2, by omega⟩
    obtain ⟨b, hb⟩ := Cut.inv_loop (n := n) hne (by omega)
    apply hb.finish

/-! ### The segments of the slices -/

/-- The call of `group_insert` that `wrapper_group_insert` makes for a slice: the entries of the
slice, the type and the stride. -/
def Slice.insertArgs (map : List (ℕ × ℕ)) (slice : Slice) :
    Except Abort (List (ℕ × ℕ) × SegmentType × ℕ) :=
  let part := (map.drop slice.start).take slice.length
  match part with
  | [] => .error .outOfBounds
  | [_] => .ok (part, .accurate, 0)
  | [a, b] => .ok (part, .accurate, b.1 - a.1)
  | _ =>
      if slice.isacc then do
        require .noInterval (slice.interval ≠ uint32Max)
        return (part, .accurate, slice.interval)
      else
        .ok (part, .approximate, uint32Max)

theorem Ftl.wrapperGroupInsert_eq {P : Type} (pr : Predictor P) (alloc : ℕ → ℕ) (s : Ftl P) (g : ℕ)
    (map : List (ℕ × ℕ)) (slice : Slice) :
  s.wrapperGroupInsert pr alloc g map slice
    = slice.insertArgs map >>= fun args => s.insertGroup pr alloc g args.1 args.2.1 args.2.2
  := by
  unfold wrapperGroupInsert Slice.insertArgs
  rcases (map.drop slice.start).take slice.length with _ | ⟨a, _ | ⟨b, _ | ⟨c, l⟩⟩⟩
  · rfl
  · rfl
  · rfl
  · dsimp only
    split
    · unfold require
      split
      · rfl
      · rfl
    · rfl

section Exact

variable {map : List (ℕ × ℕ)}

theorem intervals_getElem? {j : ℕ} (hj : j + 1 < map.length) :
  (Ftl.intervals map)[j]? = some (map[j + 1].1 - map[j].1)
  := by
  have hj' : j < map.length := by omega
  have hdrop : (map.drop 1)[j]? = some map[j + 1] := by
    rw [List.getElem?_drop, Nat.add_comm 1 j, List.getElem?_eq_getElem hj]
  rw [Ftl.intervals, List.getElem?_zipWith, List.getElem?_eq_getElem hj', hdrop]

theorem intervals_length :
  (Ftl.intervals map).length + 1 = map.length ∨ map = []
  := by
  cases map with
  | nil => apply Or.inr rfl
  | cons q map =>
      apply Or.inl
      simp [Ftl.intervals]

/-- Slices that follow each other have together what they cover. -/
theorem Tiles.flatMap_part {l : List Slice} {b : ℕ} :
  ∀ {a : ℕ}, Tiles a l b → b = map.length →
    l.flatMap (fun slice => (map.drop slice.start).take slice.length) = map.drop a
  := by
  induction l with
  | nil =>
      rintro a rfl hb
      rw [List.flatMap_nil, hb, List.drop_length]
  | cons slice l ih =>
      rintro a ⟨rfl, -, h⟩ hb
      rw [List.flatMap_cons, ih h hb, ← List.drop_drop, List.take_append_drop]

/-- A slice lies in what the slices cover. -/
theorem Tiles.mem {l : List Slice} {b : ℕ} {slice : Slice} (hs : slice ∈ l) :
  ∀ {a : ℕ}, Tiles a l b → 0 < slice.length ∧ slice.start + slice.length ≤ b
  := by
  have hle : ∀ {l : List Slice} {a : ℕ}, Tiles a l b → a ≤ b := by
    intro l
    induction l with
    | nil =>
        rintro a rfl
        apply le_refl _
    | cons t l ih =>
        rintro a ⟨rfl, -, h⟩
        apply (Nat.le_add_right _ _).trans (ih h)
  induction l with
  | nil => cases hs
  | cons t l ih =>
      rintro a ⟨rfl, hpos, h⟩
      rcases List.mem_cons.mp hs with rfl | hs
      · use hpos, hle h
      · apply ih hs h

/-- The addresses of a slice with a constant stride, and their pieces. -/
theorem getElem?_of_stride {p a n len : ℕ} (hinc : map.Pairwise fun q r => q.1 < r.1)
    (hp : map.map Prod.snd = List.range' p map.length)
    (hn : ∀ j, a ≤ j → j + 1 < a + len → (Ftl.intervals map)[j]? = some n) {q : ℕ × ℕ}
    (hq : map[a]? = some q) :
  ∀ k < len, ∀ r, map[a + k]? = some r → r.1 = q.1 + k * n ∧ r.2 = q.2 + k
  := by
  have hpiece : ∀ i r, map[i]? = some r → r.2 = p + i := by
    intro i r hr
    have hlt := (List.getElem?_eq_some_iff.mp hr).1
    have hsnd : (map.map Prod.snd)[i]? = some r.2 := by
      rw [List.getElem?_map, hr]
      rfl
    rw [hp, List.getElem?_range' hlt, Nat.one_mul] at hsnd
    apply (Option.some.inj hsnd).symm
  intro k
  induction k with
  | zero =>
      intro _ r hr
      rw [Nat.add_zero, hq] at hr
      cases hr
      exact ⟨by omega, rfl⟩
  | succ k ih =>
      intro hk r hr
      rw [← Nat.add_assoc] at hr
      have hlt := (List.getElem?_eq_some_iff.mp hr).1
      have hmid : map[a + k]? = some map[a + k] := List.getElem?_eq_getElem (by omega)
      have hprev := (ih (by omega) _ hmid).1
      have hint := hn (a + k) (by omega) (by omega)
      rw [intervals_getElem? hlt, Option.some.injEq] at hint
      have hstep := List.pairwise_iff_getElem.mp hinc (a + k) (a + k + 1) (by omega) hlt (by omega)
      obtain rfl : map[a + k + 1] = r := (List.getElem?_eq_some_iff.mp hr).2
      constructor
      · rw [Nat.succ_mul]
        omega
      · rw [hpiece _ _ hr, hpiece _ _ hq]
        omega

/-- The accurate segment of a slice with a constant stride gives the piece of every address of the
slice. -/
theorem segmentGetAddr_of_stride {P : Type} (pr : Predictor P) {p a n len : ℕ}
    (hinc : map.Pairwise fun q r => q.1 < r.1) (hp : map.map Prod.snd = List.range' p map.length)
    (hpos : 0 < len) (hlen : a + len ≤ map.length)
    (hn : ∀ j, a ≤ j → j + 1 < a + len → (Ftl.intervals map)[j]? = some n) (ptr seq : ℕ) :
  ∃ seg, segmentMake pr ⟨((map.drop a).take len).map Prod.fst, ((map.drop a).take len).map Prod.snd⟩
      .accurate n ptr seq = .ok seg ∧
    ∀ r ∈ (map.drop a).take len, segmentGetAddr pr seg r.1 = r.2
  := by
  have hget : ∀ k < len, ((map.drop a).take len)[k]? = map[a + k]? := by
    intro k hk
    rw [List.getElem?_take_of_lt hk, List.getElem?_drop]
  have hq : map[a]? = some map[a] := List.getElem?_eq_getElem (by omega)
  generalize map[a] = q at hq
  obtain ⟨rest, hrest⟩ : ∃ rest, (map.drop a).take len = q :: rest := by
    have hhead := hget 0 hpos
    rw [Nat.add_zero, hq] at hhead
    cases hpart : (map.drop a).take len with
    | nil =>
        rw [hpart] at hhead
        cases hhead
    | cons q' rest =>
        rw [hpart, List.getElem?_cons_zero] at hhead
        cases hhead
        exact ⟨rest, rfl⟩
  obtain ⟨last, hlast⟩ : ∃ last, (((map.drop a).take len).map Prod.fst).getLast? = some last := by
    refine ⟨_, List.getLast?_eq_some_getLast ?_⟩
    rw [hrest]
    apply List.cons_ne_nil _ _
  refine ⟨⟨q.1, q.1, last, q.2, .interval n, none, seq⟩, ?_, ?_⟩
  · apply segmentMake_accurate
    · rw [hrest]
      rfl
    · apply hlast
    · rw [hrest]
      rfl
  · intro r hr
    obtain ⟨k, hk, hkr⟩ := List.getElem_of_mem hr
    have hklen : k < len := lt_of_lt_of_le hk (List.length_take_le _ _)
    have hmap : map[a + k]? = some r := by
      rw [← hget k hklen, List.getElem?_eq_getElem hk, hkr]
    obtain ⟨hlba, hpiece⟩ := getElem?_of_stride hinc hp hn hq k hklen r hmap
    have hstride : k = 0 ∨ 0 < n := by
      rcases Nat.eq_zero_or_pos k with hzero | hkpos
      · apply Or.inl hzero
      · apply Or.inr
        apply Nat.pos_of_ne_zero
        rintro rfl
        obtain ⟨hlt, hr'⟩ := List.getElem?_eq_some_iff.mp hmap
        obtain ⟨hlt', hq'⟩ := List.getElem?_eq_some_iff.mp hq
        have hless := List.pairwise_iff_getElem.mp hinc a (a + k) hlt' hlt (by omega)
        rw [hr', hq', hlba] at hless
        omega
    change (r.1 - q.1) / (if n ≤ 1 then 1 else n) + q.2 = r.2
    rw [hlba, hpiece, Nat.add_sub_cancel_left, Nat.add_comm]
    congr 1
    split
    · have hone : k = 0 ∨ n = 1 := by omega
      rcases hone with rfl | rfl
      · rw [Nat.zero_mul]
      · rw [Nat.mul_one, Nat.div_one]
    · apply Nat.mul_div_cancel k (by omega)

/-- The slices of the addresses of a group, without a condition on the strides: a difference of two
addresses is the value that stands for no stride only when there are no other addresses. -/
theorem leaSlices_tiles_map (hne : map ≠ []) (hinc : map.Pairwise fun q r => q.1 < r.1)
    (hlba : ∀ q ∈ map, q.1 ≤ uint32Max) :
  Tiles 0 (leaSlices (Ftl.intervals map) map.length) map.length ∧
    ∀ slice ∈ leaSlices (Ftl.intervals map) map.length, slice.Strided (Ftl.intervals map)
  := by
  by_cases hmax : ∃ v ∈ Ftl.intervals map, v = uint32Max
  · obtain ⟨v, hv, rfl⟩ := hmax
    obtain ⟨j, hj, hvj⟩ := List.getElem_of_mem hv
    have hlen := intervals_length.resolve_right hne
    have hj' : j + 1 < map.length := by omega
    have hdiff := intervals_getElem? hj'
    rw [List.getElem?_eq_getElem hj, hvj, Option.some.injEq] at hdiff
    have hless := List.pairwise_iff_getElem.mp hinc
    have hnext := hlba _ (List.getElem_mem hj')
    have hprev := hless j (j + 1) (by omega) hj' (by omega)
    have hj0 : j = 0 := by
      by_contra hpos
      have hzero := hless 0 j (by omega) (by omega) (by omega)
      omega
    subst hj0
    have hsize : map.length = 2 := by
      by_contra hlong
      have hlast := hless (0 + 1) 2 (by omega) (by omega) (by omega)
      have hbound := hlba _ (List.getElem_mem (show 2 < map.length by omega))
      omega
    obtain ⟨v, hint⟩ : ∃ v, Ftl.intervals map = [v] := List.length_eq_one_iff.mp (by omega)
    rw [hint, hsize]
    use ⟨rfl, Nat.two_pos, rfl⟩
    intro slice hslice hacc
    have hslice' : slice = ⟨0, 2, false, uint32Max⟩ := List.mem_singleton.mp hslice
    rw [hslice'] at hacc
    cases hacc
  · apply leaSlices_tiles (intervals_length.resolve_right hne)
    intro v hv hvmax
    apply hmax ⟨v, hv, hvmax⟩

/-- The insertion of a slice: its entries, and a stride when the segment is accurate. -/
theorem Slice.insertArgs_eq {slice : Slice} (hpos : 0 < slice.length)
    (hend : slice.start + slice.length ≤ map.length) (hacc : slice.Strided (Ftl.intervals map)) :
  ∃ type n, slice.insertArgs map = .ok ((map.drop slice.start).take slice.length, type, n)
    ∧ (type = .accurate → ∀ j, slice.start ≤ j → j + 1 < slice.start + slice.length →
      (Ftl.intervals map)[j]? = some n)
  := by
  have hlen : ((map.drop slice.start).take slice.length).length = slice.length := by
    rw [List.length_take, List.length_drop]
    omega
  unfold Slice.insertArgs
  rcases hpart : (map.drop slice.start).take slice.length with _ | ⟨a, _ | ⟨b, _ | ⟨c, l⟩⟩⟩
  · rw [hpart, List.length_nil] at hlen
    omega
  · rw [hpart, List.length_singleton] at hlen
    refine ⟨.accurate, 0, rfl, ?_⟩
    intro _ j hj hj'
    omega
  · rw [hpart] at hlen
    refine ⟨.accurate, b.1 - a.1, rfl, ?_⟩
    intro _ j hj hj'
    have htwo : slice.length = 2 := hlen.symm
    obtain rfl : j = slice.start := by omega
    have hget : ∀ k < 2, map[slice.start + k]? = [a, b][k]? := by
      intro k hk
      rw [← hpart, List.getElem?_take_of_lt (by omega), List.getElem?_drop]
    have ha := (List.getElem?_eq_some_iff.mp (hget 0 (by decide))).2
    have hb := (List.getElem?_eq_some_iff.mp (hget 1 (by decide))).2
    rw [intervals_getElem? (by omega), hb]
    simp only [Nat.add_zero] at ha
    rw [ha]
  · dsimp only
    cases hisacc : slice.isacc with
    | false =>
        refine ⟨.approximate, uint32Max, rfl, ?_⟩
        intro happ
        cases happ
    | true =>
        obtain ⟨-, hinterval, hstride⟩ := hacc hisacc
        refine ⟨.accurate, slice.interval, ?_, fun _ => hstride⟩
        rw [if_pos rfl]
        exact bind_eq_ok.mpr ⟨(), require_eq_ok.mpr hinterval, rfl⟩

/-- The calls of `group_insert` for the addresses of a group, which increase and lie in pieces that
follow each other: the slices follow each other and have every entry once; an accurate segment is
made only of a slice with one stride, and it gives the piece of every address of the slice. -/
theorem leaSlices_exact {P : Type} (pr : Predictor P) {p : ℕ} (hne : map ≠ [])
    (hinc : map.Pairwise fun q r => q.1 < r.1) (hlba : ∀ q ∈ map, q.1 ≤ uint32Max)
    (hp : map.map Prod.snd = List.range' p map.length) :
  Tiles 0 (leaSlices (Ftl.intervals map) map.length) map.length ∧
  (leaSlices (Ftl.intervals map) map.length).flatMap
    (fun slice => (map.drop slice.start).take slice.length) = map ∧
  ∀ slice ∈ leaSlices (Ftl.intervals map) map.length, ∃ type n,
    slice.insertArgs map = .ok ((map.drop slice.start).take slice.length, type, n) ∧
    (type = .accurate →
      (∀ j, slice.start ≤ j → j + 1 < slice.start + slice.length →
        (Ftl.intervals map)[j]? = some n) ∧
      ∀ ptr seq, ∃ seg,
        segmentMake pr ⟨((map.drop slice.start).take slice.length).map Prod.fst,
          ((map.drop slice.start).take slice.length).map Prod.snd⟩ type n ptr seq = .ok seg ∧
        ∀ r ∈ (map.drop slice.start).take slice.length, segmentGetAddr pr seg r.1 = r.2)
  := by
  obtain ⟨htiles, hstrided⟩ := leaSlices_tiles_map hne hinc hlba
  use htiles, htiles.flatMap_part rfl
  intro slice hslice
  obtain ⟨hpos, hend⟩ := htiles.mem hslice
  obtain ⟨type, n, hargs, hstride⟩ := slice.insertArgs_eq hpos hend (hstrided slice hslice)
  use type, n, hargs
  rintro rfl
  use hstride rfl
  intro ptr seq
  apply segmentGetAddr_of_stride pr hinc hp hpos hend (hstride rfl) ptr seq

/-- Five addresses with two strides. -/
theorem leaSlices_exact_five :
  Tiles 0 (leaSlices [2, 2, 1, 3] 5) 5 ∧
  (leaSlices [2, 2, 1, 3] 5).flatMap
    (fun slice => ([(4, 8), (6, 9), (8, 10), (9, 11), (12, 12)].drop slice.start).take slice.length)
      = [(4, 8), (6, 9), (8, 10), (9, 11), (12, 12)]
  := by
  have h := @leaSlices_exact [(4, 8), (6, 9), (8, 10), (9, 11), (12, 12)] Unit
    ⟨fun _ => (), fun _ _ => 0, fun _ => 1⟩ 8 (by decide) (by decide) (by decide)
    rfl
  exact ⟨h.1, h.2.1⟩

end Exact

end LeaFtl

end AppL
