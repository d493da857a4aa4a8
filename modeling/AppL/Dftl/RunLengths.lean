import Mathlib.Logic.Function.Basic
import AppL.Dftl.Basic
import AppL.Lib.MaximalRuns
import AppL.Lib.OrderedMap
import AppL.Lib.Transition

/-!
# Runs of a translation page

The spatial cache charges a translation page by the runs of consecutive physical addresses in
it.  The runs are kept in a map from their first offset to their last one.  They are found by a
scan when a page is read, and are followed through the updates of single offsets while it is
cached.
-/

namespace AppL

open Transition MaximalRuns

namespace Dftl

/-- `x+1` of a `uint32_t`. -/
def succ32 (x : ℕ) : ℕ := (x + 1) % 2 ^ 32

/-- `BITMAPSIZE`. -/
def bitmapSize : ℕ := dmfPerPage / 8 + if dmfPerPage % 8 = 0 then 0 else 1

/-- A `nocpu_sftl_cache`. -/
structure SftlCache where
  headArray : ℕ → ℕ
  runLength : List (ℕ × ℕ)
  unpopulatedNum : ℕ

/-! ### Updates -/

/-- The run behind `it` is erased when it continues the new address: the end of the run of the
new address, and the runs. -/
def absorbNext (offset ppa it : ℕ) (headArray : ℕ → ℕ) (runLength : List (ℕ × ℕ)) :
    ℕ × List (ℕ × ℕ) :=
  match OrderedMap.above it runLength with
  | some next =>
      if next.1 = offset + 1 ∧ succ32 ppa = headArray next.1 then
        (next.2, OrderedMap.erase next.1 runLength)
      else
        (offset, runLength)
  | none => (offset, runLength)

/-- The run of the offset alone is joined with the run before it. -/
def updateBackward (outside : Option (ℕ × ℕ)) (offset ppa : ℕ) (headArray : ℕ → ℕ)
    (runLength : List (ℕ × ℕ)) : Except Abort (List (ℕ × ℕ)) :=
  if offset ≠ 0 ∧ succ32 (headArray (offset - 1)) = ppa then do
    let prev ← orThrow .mapBegin
      ((OrderedMap.last (fun k => decide (k < offset)) runLength).or outside)
    return OrderedMap.erase offset
      (if prev.2 + 1 = offset then OrderedMap.set prev.1 offset runLength else runLength)
  else
    .ok runLength

/-- `update_run_length` from the run `it` on.  What is written to a pair in front of the first run is
lost, and the first run is the next one. -/
def updateFrom (outside : Option (ℕ × ℕ)) (it : ℕ × ℕ) (runLength : List (ℕ × ℕ))
    (offset ppa : ℕ) (headArray : ℕ → ℕ) : Except Abort (List (ℕ × ℕ)) :=
  if it.1 > offset then
    -- no consecutive
    .ok (OrderedMap.insert offset offset runLength)
  else if it.2 > offset then
    if it.1 = offset then
      -- update head
      let m := OrderedMap.set it.1 offset runLength
      .ok (if offset + 1 ≤ it.2 then OrderedMap.insert (offset + 1) it.2 m else m)
    else
      -- update inside
      let m := OrderedMap.set it.1 (offset - 1) runLength
      let m := if offset + 1 ≤ it.2 then OrderedMap.insert (offset + 1) it.2 m else m
      .ok (OrderedMap.insert offset offset m)
  else if it.2 + 1 = offset ∧ succ32 (headArray (offset - 1)) = ppa then
    .ok (OrderedMap.set it.1 offset runLength)
  else
    let next := absorbNext offset ppa it.1 headArray runLength
    if it.2 = offset ∧ it.1 ≠ offset then
      .ok (OrderedMap.insert offset next.1 (OrderedMap.set it.1 (offset - 1) next.2))
    else if it.2 = offset ∧ it.1 = offset then
      updateBackward outside offset ppa headArray next.2
    else
      -- no entry for offset
      .ok (OrderedMap.insert offset next.1 next.2)

/-- `update_run_length`, when an iterator that has stepped in front of the first run points to the
pair `outside`, or stops the program. -/
def updateRunLengthWith (outside : Option (ℕ × ℕ)) (runLength : List (ℕ × ℕ)) (offset ppa : ℕ)
    (headArray : ℕ → ℕ) : Except Abort (List (ℕ × ℕ)) :=
  if runLength.length = 0 then
    .ok (OrderedMap.insert offset offset runLength)
  else do
    let it ← orThrow .mapBegin
      ((OrderedMap.last (fun k => decide (k ≤ offset)) runLength).or outside)
    updateFrom outside it runLength offset ppa headArray

/-- `update_run_length`, which stops in front of the first run. -/
def updateRunLength : List (ℕ × ℕ) → ℕ → ℕ → (ℕ → ℕ) → Except Abort (List (ℕ × ℕ)) :=
  updateRunLengthWith none

namespace SftlCache

/-- `get_initial_state_cache`. -/
def initial : SftlCache := ⟨fun _ => uint32Max, [], dmfPerPage⟩

variable (sc : SftlCache)

/-- What `__update_entry` does with the arrays of a page. -/
def updateWith (outside : Option (ℕ × ℕ)) (offset ppa : ℕ) : Except Abort SftlCache := do
  let oldPpa := sc.headArray offset
  let headArray := Function.update sc.headArray offset ppa
  let runLength ← updateRunLengthWith outside sc.runLength offset ppa headArray
  return {
    headArray := headArray
    runLength := runLength
    unpopulatedNum :=
      if oldPpa = uint32Max ∧ sc.unpopulatedNum ≠ 0 then sc.unpopulatedNum - 1
      else sc.unpopulatedNum }

/-- An update that stops in front of the first run. -/
def update (offset ppa : ℕ) : Except Abort SftlCache := sc.updateWith none offset ppa

/-- The `gtd_size` of a page. -/
def gtdSize : ℕ := (sc.runLength.length + sc.unpopulatedNum) * 4 + bitmapSize

end SftlCache

/-! ### The scan -/

/-- The variables of the loop of `make_sc_from_translation`. -/
structure Scan where
  runLength : List (ℕ × ℕ)
  unpopulatedNum : ℕ
  prevPpa : ℕ
  startOffset : Option ℕ

/-- The loop of `make_sc_from_translation` at `i`. -/
def scanStep (headArray : ℕ → ℕ) (t : Scan) (i : ℕ) : Scan :=
  if headArray i = uint32Max then
    match t.startOffset with
    | some start =>
        { t with
          runLength := OrderedMap.insert start (i - 1) t.runLength
          startOffset := none }
    | none => t
  else
    let t := { t with unpopulatedNum := t.unpopulatedNum - 1 }
    match t.startOffset with
    | none => { t with startOffset := some i, prevPpa := headArray i }
    | some start =>
        if succ32 t.prevPpa = headArray i then
          { t with prevPpa := succ32 t.prevPpa }
        else
          { t with
            runLength := OrderedMap.insert start (i - 1) t.runLength
            startOffset := some i
            prevPpa := headArray i }

/-- `make_sc_from_translation` of the array that was read. -/
def makeScFromTranslation (headArray : ℕ → ℕ) : SftlCache :=
  let t := (List.range dmfPerPage).foldl (scanStep headArray) ⟨[], dmfPerPage, uint32Max, none⟩
  { headArray := headArray
    runLength :=
      match t.startOffset with
      | some start => OrderedMap.insert start (dmfPerPage - 1) t.runLength
      | none => t.runLength
    unpopulatedNum := t.unpopulatedNum }

/-! ### The runs of an array -/

/-- The populated offsets, and those with consecutive addresses. -/
def lineOf (headArray : ℕ → ℕ) : Line where
  pop i := i < dmfPerPage ∧ headArray i ≠ uint32Max
  link i := i + 1 < dmfPerPage ∧ headArray i ≠ uint32Max ∧ headArray (i + 1) ≠ uint32Max
    ∧ headArray (i + 1) = headArray i + 1
  left _ h := ⟨by omega, h.2.1⟩
  right _ h := ⟨h.1, h.2.2.1⟩

/-- A map has the maximal runs of an array. -/
structure Exact (headArray : ℕ → ℕ) (m : List (ℕ × ℕ)) : Prop where
  sorted : OrderedMap.Sorted m
  mem : ∀ r, r ∈ m ↔ (lineOf headArray).MaxRun r.1 r.2

/-- The new address continues the one before. -/
def JoinsLeft (headArray : ℕ → ℕ) (offset ppa : ℕ) : Prop :=
  offset ≠ 0 ∧ headArray (offset - 1) ≠ uint32Max ∧ headArray (offset - 1) + 1 = ppa
  deriving Decidable

/-- The next address continues the new one. -/
def JoinsRight (headArray : ℕ → ℕ) (offset ppa : ℕ) : Prop :=
  offset + 1 < dmfPerPage ∧ headArray (offset + 1) ≠ uint32Max ∧ ppa + 1 = headArray (offset + 1)
  deriving Decidable

/-- An update that `update_run_length` follows from the run `it` on:
- when the offset is in the run and is not its end, the address continues neither neighbour;
- when the offset is the end of a longer run, the address does not continue the one before;
- when the offset is a run of its own, the next address does not continue the new one, and the
  offset before is not taken for its predecessor when it is empty and the address is `0`;
- when the offset is empty, the address does not join both neighbours. -/
def FollowsFrom (it : ℕ × ℕ) (headArray : ℕ → ℕ) (offset ppa : ℕ) : Prop :=
  if offset < it.2 then
    ¬ JoinsLeft headArray offset ppa ∧ ¬ JoinsRight headArray offset ppa
  else if it.2 = offset then
    if it.1 < offset then ¬ JoinsLeft headArray offset ppa
    else ¬ JoinsRight headArray offset ppa
      ∧ ¬ (offset ≠ 0 ∧ headArray (offset - 1) = uint32Max ∧ ppa = 0)
  else ¬ (JoinsLeft headArray offset ppa ∧ JoinsRight headArray offset ppa)

/-- An update that `update_run_length` follows: it has an address, and a run begins at or before
its offset unless there is no run. -/
def Follows (sc : SftlCache) (u : ℕ × ℕ) : Prop :=
  u.2 ≠ uint32Max ∧
    match OrderedMap.last (fun k => decide (k ≤ u.1)) sc.runLength with
    | none => sc.runLength = []
    | some it => FollowsFrom it sc.headArray u.1 u.2

instance (it : ℕ × ℕ) (headArray : ℕ → ℕ) (offset ppa : ℕ) :
    Decidable (FollowsFrom it headArray offset ppa) := by
  unfold FollowsFrom
  infer_instance

instance (sc : SftlCache) (u : ℕ × ℕ) : Decidable (Follows sc u) :=
  match h : OrderedMap.last (fun k => decide (k ≤ u.1)) sc.runLength with
  | none => decidable_of_iff (u.2 ≠ uint32Max ∧ sc.runLength = []) (by simp only [Follows, h])
  | some it =>
      decidable_of_iff (u.2 ≠ uint32Max ∧ FollowsFrom it sc.headArray u.1 u.2)
        (by simp only [Follows, h])

/-! ### One offset -/

section Update

variable {head : ℕ → ℕ} {m m' : List (ℕ × ℕ)} {o p : ℕ}

theorem pop_lt {i : ℕ} (h : (lineOf head).pop i) :
  i < dmfPerPage
  := h.1

theorem succ32_eq {x : ℕ} (hx : x < uint32Max) :
  succ32 x = x + 1
  := by
  unfold succ32
  unfold uint32Max at hx
  omega

theorem succ32_uint32Max :
  succ32 uint32Max = 0
  := rfl

theorem differs (head : ℕ → ℕ) (o p : ℕ) :
  Line.Differs o (lineOf head) (lineOf (Function.update head o p))
  where
    pop i hi := by simp [lineOf, hi]
    link i hi hi' := by simp [lineOf, hi, hi']

theorem pop_update (ho : o < dmfPerPage) :
  (lineOf (Function.update head o p)).pop o ↔ p ≠ uint32Max
  := by
  simp [lineOf, ho]

theorem link_before (ho : o < dmfPerPage) (hp : p ≠ uint32Max) {i : ℕ} (hi : i + 1 = o) :
  (lineOf (Function.update head o p)).link i ↔ JoinsLeft head o p
  := by
  subst hi
  have hne : i ≠ i + 1 := by omega
  simp only [lineOf, JoinsLeft, Function.update_self, Function.update_of_ne hne, Nat.add_sub_cancel]
  constructor
  · rintro ⟨-, h₁, -, h₂⟩
    use by omega, h₁, h₂.symm
  · rintro ⟨-, h₁, h₂⟩
    use ho, h₁, hp, h₂.symm

theorem link_at (hp : p ≠ uint32Max) :
  (lineOf (Function.update head o p)).link o ↔ JoinsRight head o p
  := by
  have hne : o + 1 ≠ o := by omega
  simp only [lineOf, JoinsRight, Function.update_self, Function.update_of_ne hne]
  constructor
  · rintro ⟨h₀, -, h₁, h₂⟩
    use h₀, h₁, h₂.symm
  · rintro ⟨h₀, h₁, h₂⟩
    use h₀, hp, h₁, h₂.symm

/-- The same array has one map of its runs. -/
theorem Exact.unique (h : Exact head m) (h' : Exact head m') :
  m = m'
  := h.sorted.ext h'.sorted fun r => (h.mem r).trans (h'.mem r).symm

theorem Exact.covers (h : Exact head m) {i : ℕ} (hi : (lineOf head).pop i) :
  ∃ r ∈ m, r.1 ≤ i ∧ i ≤ r.2
  := by
  obtain ⟨a, b, hrun, hle⟩ := Line.exists_maxRun (fun _ => pop_lt) hi
  exact ⟨(a, b), (h.mem _).mpr hrun, hle⟩

theorem Exact.eq_of_mem (h : Exact head m) {r r' : ℕ × ℕ} (hr : r ∈ m) (hr' : r' ∈ m) {i : ℕ}
    (hi : r.1 ≤ i ∧ i ≤ r.2) (hi' : r'.1 ≤ i ∧ i ≤ r'.2) :
  r = r'
  := by
  obtain ⟨h₁, h₂⟩ := ((h.mem r).mp hr).unique ((h.mem r').mp hr') hi hi'
  apply Prod.ext h₁ h₂

/-- Maximal runs of the array after an update that have all its populated offsets. -/
theorem exact_of_covers (hsorted : OrderedMap.Sorted m')
    (hruns : ∀ r ∈ m', (lineOf (Function.update head o p)).MaxRun r.1 r.2)
    (hself : ∃ r ∈ m', r.1 ≤ o ∧ o ≤ r.2)
    (hother : ∀ i, i ≠ o → (lineOf head).pop i → ∃ r ∈ m', r.1 ≤ i ∧ i ≤ r.2) :
  Exact (Function.update head o p) m'
  := by
  refine ⟨hsorted, Line.mem_iff_of_covers hruns ?_⟩
  intro i hi
  by_cases hio : i = o
  · rw [hio]
    apply hself
  · apply hother i hio (((differs head o p).pop i hio).mp hi)

/-- The run that `update_run_length` finds. -/
structure Found (head : ℕ → ℕ) (m : List (ℕ × ℕ)) (o : ℕ) (it : ℕ × ℕ) : Prop where
  exact : Exact head m
  mem : it ∈ m
  le : it.1 ≤ o
  last : ∀ r ∈ m, r.1 ≤ o → r.1 ≤ it.1

theorem Exact.found (h : Exact head m) {it : ℕ × ℕ}
    (hit : OrderedMap.last (fun k => decide (k ≤ o)) m = some it) :
  Found head m o it
  := by
  obtain ⟨hmem, hle, hlast⟩ := OrderedMap.last_eq_some h.sorted hit
  use h, hmem, of_decide_eq_true hle, fun r hr hro => hlast r hr (decide_eq_true hro)

namespace Found

variable {it r : ℕ × ℕ} {i : ℕ}

theorem run (h : Found head m o it) :
  (lineOf head).MaxRun it.1 it.2
  := (h.exact.mem it).mp h.mem

/-- The other runs end before it, or begin behind it and behind the offset. -/
theorem other (h : Found head m o it) (hr : r ∈ m) (hne : r ≠ it) :
  r.1 ≤ r.2 ∧ (r.2 < it.1 ∨ o < r.1 ∧ it.2 < r.1)
  := by
  have hle := ((h.exact.mem r).mp hr).le
  have hle' := h.run.le
  use hle
  rcases Nat.lt_or_ge o r.1 with hgt | hge
  · refine .inr ⟨hgt, ?_⟩
    by_contra hnot
    have hit := h.le
    apply hne (h.exact.eq_of_mem hr h.mem (i := r.1) ⟨le_rfl, hle⟩ ⟨by omega, by omega⟩)
  · left
    by_contra hnot
    have hlast := h.last r hr hge
    apply hne (h.exact.eq_of_mem hr h.mem (i := it.1) ⟨hlast, by omega⟩ ⟨le_rfl, hle'⟩)

/-- Another run stays when the new address does not continue it. -/
theorem stay (h : Found head m o it) (hr : r ∈ m) (hne : r ≠ it)
    (hleft : r.2 + 1 = o → ¬ (lineOf (Function.update head o p)).link r.2)
    (hright : o + 1 = r.1 → ¬ (lineOf (Function.update head o p)).link o) :
  (lineOf (Function.update head o p)).MaxRun r.1 r.2
  := by
  have hle := h.le
  obtain ⟨-, hother⟩ := h.other hr hne
  exact ((h.exact.mem r).mp hr).away (differs head o p) (by omega) hleft hright

/-- The run of the offset before is the one that has been found. -/
theorem before (h : Found head m o it) (hend : it.2 < o) (hi : i + 1 = o) :
  (lineOf head).pop i ↔ it.2 = i
  := by
  constructor
  · intro hpop
    obtain ⟨r, hr, hri⟩ := h.exact.covers hpop
    by_cases hne : r = it
    · subst hne
      omega
    · have hrun := h.run.le
      have := h.other hr hne
      have := h.last r hr (by omega)
      omega
  · rintro rfl
    apply h.run.pop it.2 h.run.le le_rfl

/-- The run of the next offset begins there. -/
theorem next (h : Found head m o it) (hend : it.2 ≤ o) (hi : (lineOf head).pop (o + 1)) :
  ∃ e, (o + 1, e) ∈ m
  := by
  obtain ⟨r, hr, hri⟩ := h.exact.covers hi
  have hne : r ≠ it := by
    rintro rfl
    omega
  have hle := h.le
  have hother := h.other hr hne
  obtain ⟨a, e⟩ := r
  obtain rfl : a = o + 1 := by
    dsimp only at *
    omega
  use e, hr

end Found

/-! ### The branches -/

section Branches

variable {it : ℕ × ℕ}

theorem mem_insert_new {k v : ℕ} (h : OrderedMap.Sorted m) (hk : ∀ y ∈ m, y.1 ≠ k) {r : ℕ × ℕ} :
  r ∈ OrderedMap.insert k v m ↔ r ∈ m ∨ r = (k, v)
  := by
  rw [OrderedMap.mem_insert h]
  constructor
  · rintro (hr | ⟨hr, -⟩)
    · left
      apply hr
    · right
      apply hr
  · rintro (hr | hr)
    · left
      apply hr
    · right
      use hr, hk

/-- The end of the run is set. -/
theorem Found.mem_set (h : Found head m o it) (v : ℕ) {r : ℕ × ℕ} :
  r ∈ OrderedMap.set it.1 v m ↔ r ∈ m ∧ r ≠ it ∨ r = (it.1, v)
  := by
  rw [OrderedMap.mem_set]
  constructor
  · rintro (⟨hr, hne⟩ | ⟨hr, -⟩)
    · left
      exact ⟨hr, fun heq => hne (congrArg Prod.fst heq)⟩
    · right
      apply hr
  · rintro (⟨hr, hne⟩ | hr)
    · left
      exact ⟨hr, fun heq => hne (h.exact.sorted.eq_of_key hr h.mem heq)⟩
    · right
      exact ⟨hr, it, h.mem, rfl⟩

/-- The first offset. -/
theorem exact_first (h : Exact head []) (ho : o < dmfPerPage) (hp : p ≠ uint32Max) :
  Exact (Function.update head o p) [(o, o)]
  := by
  have hnone : ∀ i, ¬ (lineOf head).pop i := by
    intro i hi
    obtain ⟨r, hr, -⟩ := h.covers hi
    cases hr
  have hlink : ∀ i, i ≠ o → ¬ (lineOf (Function.update head o p)).link i := by
    intro i hi hlink
    apply hnone i (((differs head o p).pop i hi).mp ((lineOf _).left i hlink))
  refine exact_of_covers (List.pairwise_singleton _ _) ?_ ⟨_, List.mem_singleton_self _, le_rfl, le_rfl⟩
    fun i _ hi => absurd hi (hnone i)
  intro r hr
  rw [List.mem_singleton.mp hr]
  refine Line.maxRun_single ((pop_update ho).mpr hp) (fun i hi => hlink i (by omega)) ?_
  intro hlinko
  apply hnone (o + 1) (((differs head o p).pop (o + 1) (by omega)).mp ((lineOf _).right o hlinko))

/-- A run is cut behind its head. -/
theorem Found.exact_head (h : Found head m o it) (ho : o < dmfPerPage) (hp : p ≠ uint32Max)
    (hit : it.1 = o) (hend : o < it.2) (hL : ¬ JoinsLeft head o p) (hR : ¬ JoinsRight head o p) :
  Exact (Function.update head o p) (OrderedMap.insert (o + 1) it.2 (OrderedMap.set it.1 o m))
  := by
  rw [← link_at hp] at hR
  have hL' : ∀ i, i + 1 = o → ¬ (lineOf (Function.update head o p)).link i :=
    fun i hi => (link_before ho hp hi).not.mpr hL
  have hsorted := h.exact.sorted.set it.1 o
  have hmem : ∀ r, r ∈ OrderedMap.insert (o + 1) it.2 (OrderedMap.set it.1 o m)
      ↔ (r ∈ m ∧ r ≠ it ∨ r = (it.1, o)) ∨ r = (o + 1, it.2) := by
    intro r
    rw [mem_insert_new hsorted, h.mem_set]
    intro y hy
    obtain ⟨hy, hne⟩ | rfl := (h.mem_set o).mp hy
    · have := h.other hy hne
      omega
    · dsimp only
      omega
  refine exact_of_covers (hsorted.insert _ _) ?_
    ⟨(it.1, o), (hmem _).mpr (.inl (.inr rfl)), hit.le, le_rfl⟩ ?_
  · intro r hr
    obtain (⟨hr, hne⟩ | rfl) | rfl := (hmem r).mp hr
    · apply h.stay hr hne (hL' r.2) fun _ => hR
    · rw [hit]
      apply Line.maxRun_single ((pop_update ho).mpr hp) hL' hR
    · apply h.run.behind (differs head o p) h.le hend hR
  · intro i hi hpop
    obtain ⟨r, hr, hri⟩ := h.exact.covers hpop
    by_cases hne : r = it
    · subst hne
      exact ⟨_, (hmem _).mpr (.inr rfl), by dsimp only; omega, hri.2⟩
    · exact ⟨r, (hmem r).mpr (.inl (.inl ⟨hr, hne⟩)), hri⟩

/-- The three parts of a run that is cut at an offset inside. -/
theorem Found.mem_inside (h : Found head m o it) (hit : it.1 < o) (hend : o < it.2) (r : ℕ × ℕ) :
  r ∈ OrderedMap.insert o o (OrderedMap.insert (o + 1) it.2 (OrderedMap.set it.1 (o - 1) m))
    ↔ ((r ∈ m ∧ r ≠ it ∨ r = (it.1, o - 1)) ∨ r = (o + 1, it.2)) ∨ r = (o, o)
  := by
  have hsorted := h.exact.sorted.set it.1 (o - 1)
  have hmem : ∀ r, r ∈ OrderedMap.insert (o + 1) it.2 (OrderedMap.set it.1 (o - 1) m)
      ↔ (r ∈ m ∧ r ≠ it ∨ r = (it.1, o - 1)) ∨ r = (o + 1, it.2) := by
    intro r
    rw [mem_insert_new hsorted, h.mem_set]
    intro y hy
    obtain ⟨hy, hne⟩ | rfl := (h.mem_set (o - 1)).mp hy
    · have := h.other hy hne
      omega
    · dsimp only
      omega
  rw [mem_insert_new (hsorted.insert _ _), hmem]
  intro y hy
  obtain (⟨hy, hne⟩ | rfl) | rfl := (hmem y).mp hy
  · have := h.other hy hne
    omega
  · dsimp only
    omega
  · dsimp only
    omega

/-- A run is cut before and behind an offset inside. -/
theorem Found.exact_inside (h : Found head m o it) (ho : o < dmfPerPage) (hp : p ≠ uint32Max)
    (hit : it.1 < o) (hend : o < it.2) (hL : ¬ JoinsLeft head o p) (hR : ¬ JoinsRight head o p) :
  Exact (Function.update head o p) (OrderedMap.insert o o
    (OrderedMap.insert (o + 1) it.2 (OrderedMap.set it.1 (o - 1) m)))
  := by
  rw [← link_at hp] at hR
  have hL' : ∀ i, i + 1 = o → ¬ (lineOf (Function.update head o p)).link i :=
    fun i hi => (link_before ho hp hi).not.mpr hL
  have hmem := h.mem_inside hit hend
  refine exact_of_covers (((h.exact.sorted.set _ _).insert _ _).insert _ _) ?_
    ⟨(o, o), (hmem _).mpr (.inr rfl), le_rfl, le_rfl⟩ ?_
  · intro r hr
    obtain ((⟨hr, hne⟩ | rfl) | rfl) | rfl := (hmem r).mp hr
    · apply h.stay hr hne (hL' r.2) fun _ => hR
    · apply h.run.before (differs head o p) hit hend.le (hL' _ (by omega))
    · apply h.run.behind (differs head o p) h.le hend hR
    · apply Line.maxRun_single ((pop_update ho).mpr hp) hL' hR
  · intro i hi hpop
    obtain ⟨r, hr, hri⟩ := h.exact.covers hpop
    by_cases hne : r = it
    · subst hne
      rcases Nat.lt_or_ge i o with hlt | hge
      · exact ⟨_, (hmem _).mpr (.inl (.inl (.inr rfl))), hri.1, by dsimp only; omega⟩
      · exact ⟨_, (hmem _).mpr (.inl (.inr rfl)), by dsimp only; omega, hri.2⟩
    · exact ⟨r, (hmem r).mpr (.inl (.inl (.inl ⟨hr, hne⟩))), hri⟩

/-- The run before the offset is extended. -/
theorem Found.exact_extend (h : Found head m o it) (ho : o < dmfPerPage) (hp : p ≠ uint32Max)
    (hend : it.2 + 1 = o) (hL : JoinsLeft head o p) (hR : ¬ JoinsRight head o p) :
  Exact (Function.update head o p) (OrderedMap.set it.1 o m)
  := by
  rw [← link_at hp] at hR
  refine exact_of_covers (h.exact.sorted.set _ _) ?_
    ⟨(it.1, o), (h.mem_set o).mpr (.inr rfl), h.le, le_rfl⟩ ?_
  · intro r hr
    obtain ⟨hr, hne⟩ | rfl := (h.mem_set o).mp hr
    · refine h.stay hr hne ?_ fun _ => hR
      intro hr₂
      have := h.other hr hne
      have := h.run.le
      omega
    · apply h.run.joinLeft (differs head o p) hend ((link_before ho hp hend).mpr hL) hR
  · intro i hi hpop
    obtain ⟨r, hr, hri⟩ := h.exact.covers hpop
    by_cases hne : r = it
    · subst hne
      exact ⟨_, (h.mem_set o).mpr (.inr rfl), hri.1, by dsimp only; omega⟩
    · exact ⟨r, (h.mem_set o).mpr (.inl ⟨hr, hne⟩), hri⟩

/-- The run behind the offset is erased when it is joined. -/
structure Absorbed (head : ℕ → ℕ) (m : List (ℕ × ℕ)) (o p : ℕ) (next : ℕ × List (ℕ × ℕ)) :
    Prop where
  sorted : OrderedMap.Sorted next.2
  mem : ∀ r, r ∈ next.2 ↔ r ∈ m ∧ ¬ (JoinsRight head o p ∧ r.1 = o + 1)
  joined : JoinsRight head o p → (o + 1, next.1) ∈ m
  alone : ¬ JoinsRight head o p → next.1 = o

theorem Found.absorbed (h : Found head m o it) (hend : it.2 ≤ o) (hp : p < uint32Max) :
  Absorbed head m o p (absorbNext o p it.1 (Function.update head o p) m)
  := by
  have hle := h.le
  have hhead : Function.update head o p (o + 1) = head (o + 1) :=
    Function.update_of_ne (Nat.succ_ne_self o) _ _
  have hstay : ¬ JoinsRight head o p → Absorbed head m o p (o, m) := by
    intro hR
    exact ⟨h.exact.sorted, fun r => ⟨fun hr => ⟨hr, fun hjoin => hR hjoin.1⟩, And.left⟩,
      fun hR' => absurd hR' hR, fun _ => rfl⟩
  have hnext : JoinsRight head o p → ∃ e, (o + 1, e) ∈ m :=
    fun hR => h.next hend ⟨hR.1, hR.2.1⟩
  unfold absorbNext
  cases habove : OrderedMap.above it.1 m with
  | none =>
      apply hstay
      intro hR
      obtain ⟨e, he⟩ := hnext hR
      have := OrderedMap.above_eq_none.mp habove _ he
      dsimp only at this
      omega
  | some next =>
      obtain ⟨hmem, hlt, hfirst⟩ := OrderedMap.above_eq_some h.exact.sorted habove
      dsimp only
      by_cases hcond : next.1 = o + 1 ∧ succ32 p = Function.update head o p next.1
      · rw [if_pos hcond]
        obtain ⟨hnext₁, hsucc⟩ := hcond
        have hpop := ((h.exact.mem next).mp hmem).pop next.1 le_rfl ((h.exact.mem next).mp hmem).le
        rw [hnext₁, hhead, succ32_eq hp] at hsucc
        rw [hnext₁] at hpop
        have hR : JoinsRight head o p := ⟨hpop.1, hpop.2, hsucc⟩
        refine ⟨h.exact.sorted.erase _, ?_, ?_, fun hR' => absurd hR hR'⟩
        · intro r
          rw [OrderedMap.mem_erase, hnext₁]
          constructor
          · rintro ⟨hr, hne⟩
            use hr, fun hjoin => hne hjoin.2
          · rintro ⟨hr, hne⟩
            use hr, fun heq => hne ⟨hR, heq⟩
        · intro _
          rw [← hnext₁]
          apply hmem
      · rw [if_neg hcond]
        apply hstay
        intro hR
        obtain ⟨e, he⟩ := hnext hR
        have hle' := hfirst _ he (by dsimp only; omega)
        have hlast := h.last next hmem
        apply hcond
        obtain hnext₁ : next.1 = o + 1 := by
          dsimp only at hle'
          omega
        use hnext₁
        rw [hnext₁, hhead, succ32_eq hp]
        apply hR.2.2

/-- The run that begins with the offset. -/
theorem Absorbed.run {next : ℕ × List (ℕ × ℕ)} (ha : Absorbed head m o p next)
    (h : Exact head m) (ho : o < dmfPerPage) (hp : p ≠ uint32Max) (hL : ¬ JoinsLeft head o p) :
  (lineOf (Function.update head o p)).MaxRun o next.1
  := by
  have hL' : ∀ i, i + 1 = o → ¬ (lineOf (Function.update head o p)).link i :=
    fun i hi => (link_before ho hp hi).not.mpr hL
  by_cases hR : JoinsRight head o p
  · exact ((h.mem _).mp (ha.joined hR)).joinRight (differs head o p) rfl ((link_at hp).mpr hR) hL'
  · rw [ha.alone hR]
    apply Line.maxRun_single ((pop_update ho).mpr hp) hL' ((link_at hp).not.mpr hR)

/-- The run that begins with the offset has what the erased run had. -/
theorem Absorbed.covers {next : ℕ × List (ℕ × ℕ)} (ha : Absorbed head m o p next)
    (h : Exact head m) {r : ℕ × ℕ} {i : ℕ} (hr : r ∈ m) (hi : r.1 ≤ i ∧ i ≤ r.2)
    (hgone : r ∉ next.2) :
  o ≤ i ∧ i ≤ next.1
  := by
  rw [ha.mem] at hgone
  obtain ⟨hR, hr₁⟩ : JoinsRight head o p ∧ r.1 = o + 1 := by
    by_contra hnot
    apply hgone ⟨hr, hnot⟩
  have heq := h.sorted.eq_of_key hr (ha.joined hR) hr₁
  rw [heq] at hi
  use by dsimp only at hi; omega, hi.2

/-- The end of a run is cut off, and is joined with the run behind if it continues. -/
theorem Found.exact_tail (h : Found head m o it) (ho : o < dmfPerPage) (hp : p < uint32Max)
    (hit : it.1 < o) (hend : it.2 = o) (hL : ¬ JoinsLeft head o p) :
  Exact (Function.update head o p)
    (OrderedMap.insert o (absorbNext o p it.1 (Function.update head o p) m).1
      (OrderedMap.set it.1 (o - 1) (absorbNext o p it.1 (Function.update head o p) m).2))
  := by
  have ha := h.absorbed hend.le hp
  generalize absorbNext o p it.1 (Function.update head o p) m = next at ha
  have hL' : ∀ i, i + 1 = o → ¬ (lineOf (Function.update head o p)).link i :=
    fun i hi => (link_before ho hp.ne hi).not.mpr hL
  have hsorted := ha.sorted.set it.1 (o - 1)
  have hitmem : it ∈ next.2 := by
    rw [ha.mem]
    use h.mem, fun hjoin => by have := hjoin.2; omega
  have hset : ∀ r, r ∈ OrderedMap.set it.1 (o - 1) next.2
      ↔ r ∈ next.2 ∧ r ≠ it ∨ r = (it.1, o - 1) := by
    intro r
    rw [OrderedMap.mem_set]
    constructor
    · rintro (⟨hr, hne⟩ | ⟨hr, -⟩)
      · left
        exact ⟨hr, fun heq => hne (congrArg Prod.fst heq)⟩
      · right
        apply hr
    · rintro (⟨hr, hne⟩ | hr)
      · left
        exact ⟨hr, fun heq => hne (ha.sorted.eq_of_key hr hitmem heq)⟩
      · right
        exact ⟨hr, it, hitmem, rfl⟩
  have hmem : ∀ r, r ∈ OrderedMap.insert o next.1 (OrderedMap.set it.1 (o - 1) next.2)
      ↔ (r ∈ next.2 ∧ r ≠ it ∨ r = (it.1, o - 1)) ∨ r = (o, next.1) := by
    intro r
    rw [mem_insert_new hsorted, hset]
    intro y hy
    obtain ⟨hy, hne⟩ | rfl := (hset y).mp hy
    · have := h.other ((ha.mem y).mp hy).1 hne
      omega
    · dsimp only
      omega
  have hrun := ha.run h.exact ho hp.ne hL
  refine exact_of_covers (hsorted.insert _ _) ?_
    ⟨(o, next.1), (hmem _).mpr (.inr rfl), le_rfl, hrun.le⟩ ?_
  · intro r hr
    obtain (⟨hr, hne⟩ | rfl) | rfl := (hmem r).mp hr
    · obtain ⟨hr, hstay⟩ := (ha.mem r).mp hr
      refine h.stay hr hne (hL' r.2) ?_
      intro hr₁
      rw [link_at hp.ne]
      exact fun hR => hstay ⟨hR, hr₁.symm⟩
    · apply h.run.before (differs head o p) hit hend.ge (hL' _ (by omega))
    · apply hrun
  · intro i hi hpop
    obtain ⟨r, hr, hri⟩ := h.exact.covers hpop
    by_cases hne : r = it
    · subst hne
      exact ⟨_, (hmem _).mpr (.inl (.inr rfl)), hri.1, by dsimp only; omega⟩
    · by_cases hgone : r ∈ next.2
      · exact ⟨r, (hmem r).mpr (.inl (.inl ⟨hgone, hne⟩)), hri⟩
      · exact ⟨_, (hmem _).mpr (.inr rfl), ha.covers h.exact hr hri hgone⟩

/-- An empty offset gets a run of its own, which is joined with the run behind if it
continues. -/
theorem Found.exact_absent (h : Found head m o it) (ho : o < dmfPerPage) (hp : p < uint32Max)
    (hend : it.2 < o) (hL : ¬ JoinsLeft head o p) :
  Exact (Function.update head o p)
    (OrderedMap.insert o (absorbNext o p it.1 (Function.update head o p) m).1
      (absorbNext o p it.1 (Function.update head o p) m).2)
  := by
  have ha := h.absorbed hend.le hp
  generalize absorbNext o p it.1 (Function.update head o p) m = next at ha
  have hL' : ∀ i, i + 1 = o → ¬ (lineOf (Function.update head o p)).link i :=
    fun i hi => (link_before ho hp.ne hi).not.mpr hL
  have haway : ∀ r ∈ m, o < r.1 ∨ r.2 < o := by
    intro r hr
    by_cases hne : r = it
    · rw [hne]
      right
      apply hend
    · have := h.other hr hne
      have := h.le
      omega
  have hmem : ∀ r, r ∈ OrderedMap.insert o next.1 next.2 ↔ r ∈ next.2 ∨ r = (o, next.1) := by
    intro r
    rw [mem_insert_new ha.sorted]
    intro y hy hy₁
    have hy := ((ha.mem y).mp hy).1
    have := haway y hy
    have := ((h.exact.mem y).mp hy).le
    omega
  have hrun := ha.run h.exact ho hp.ne hL
  refine exact_of_covers (ha.sorted.insert _ _) ?_
    ⟨(o, next.1), (hmem _).mpr (.inr rfl), le_rfl, hrun.le⟩ ?_
  · intro r hr
    obtain hr | rfl := (hmem r).mp hr
    · obtain ⟨hr, hstay⟩ := (ha.mem r).mp hr
      refine ((h.exact.mem r).mp hr).away (differs head o p) (haway r hr) (hL' r.2) ?_
      intro hr₁
      rw [link_at hp.ne]
      exact fun hR => hstay ⟨hR, hr₁.symm⟩
    · apply hrun
  · intro i hi hpop
    obtain ⟨r, hr, hri⟩ := h.exact.covers hpop
    by_cases hgone : r ∈ next.2
    · exact ⟨r, (hmem r).mpr (.inl hgone), hri⟩
    · exact ⟨_, (hmem _).mpr (.inr rfl), ha.covers h.exact hr hri hgone⟩

/-- What is found before a run of one offset. -/
theorem Found.prev (h : Found head m o it) (hend : it.2 = o) {i : ℕ} (hi : i + 1 = o)
    {prev : ℕ × ℕ} (hprev : OrderedMap.last (fun k => decide (k < o)) m = some prev)
    (hit : it.1 = o) :
  prev ∈ m ∧ prev ≠ it ∧ prev.2 < o ∧ ((lineOf head).pop i ↔ prev.2 = i)
  := by
  obtain ⟨hmem, hlt, hlast⟩ := OrderedMap.last_eq_some h.exact.sorted hprev
  have hlt := of_decide_eq_true hlt
  have hne : prev ≠ it := by
    rintro rfl
    omega
  have hother := h.other hmem hne
  refine ⟨hmem, hne, by omega, ?_, ?_⟩
  · intro hpop
    obtain ⟨r, hr, hri⟩ := h.exact.covers hpop
    have hle := hlast r hr (decide_eq_true (by omega))
    have heq : prev = r := h.exact.eq_of_mem hmem hr (i := prev.1) ⟨le_rfl, hother.1⟩
      ⟨hle, by omega⟩
    rw [heq] at hother ⊢
    omega
  · rintro rfl
    exact ((h.exact.mem prev).mp hmem).pop prev.2 hother.1 le_rfl

/-- A run of one offset is joined with the run before it. -/
theorem Found.exact_backward (h : Found head m o it) (ho : o < dmfPerPage) (hp : p ≠ uint32Max)
    (hit : it.1 = o) (hend : it.2 = o) (hL : JoinsLeft head o p) (hR : ¬ JoinsRight head o p)
    {prev : ℕ × ℕ} (hprev : OrderedMap.last (fun k => decide (k < o)) m = some prev) :
  prev.2 + 1 = o ∧ Exact (Function.update head o p)
    (OrderedMap.erase o (OrderedMap.set prev.1 o m))
  := by
  have hpos := hL.1
  obtain ⟨hmem, hne, hlt, hpop⟩ := h.prev hend (i := o - 1) (by omega) hprev hit
  have hprev₂ : prev.2 = o - 1 := hpop.mp ⟨by omega, hL.2.1⟩
  have hother := h.other hmem hne
  use by omega
  rw [← link_at hp] at hR
  have hset : ∀ r, r ∈ OrderedMap.erase o (OrderedMap.set prev.1 o m)
      ↔ (r ∈ m ∧ r ≠ prev ∧ r ≠ it) ∨ r = (prev.1, o) := by
    intro r
    rw [OrderedMap.mem_erase, OrderedMap.mem_set]
    constructor
    · rintro ⟨⟨hr, hne₁⟩ | ⟨hr, -⟩, hne₂⟩
      · exact .inl ⟨hr, fun heq => hne₁ (congrArg Prod.fst heq),
          fun heq => hne₂ ((congrArg Prod.fst heq).trans hit)⟩
      · right
        apply hr
    · rintro (⟨hr, hne₁, hne₂⟩ | rfl)
      · exact ⟨.inl ⟨hr, fun heq => hne₁ (h.exact.sorted.eq_of_key hr hmem heq)⟩,
          fun heq => hne₂ (h.exact.sorted.eq_of_key hr h.mem (heq.trans hit.symm))⟩
      · use .inr ⟨rfl, prev, hmem, rfl⟩, by dsimp only; omega
  refine exact_of_covers ((h.exact.sorted.set _ _).erase _) ?_
    ⟨(prev.1, o), (hset _).mpr (.inr rfl), by dsimp only; omega, le_rfl⟩ ?_
  · intro r hr
    obtain ⟨hr, hne₁, hne₂⟩ | rfl := (hset r).mp hr
    · refine h.stay hr hne₂ ?_ fun _ => hR
      intro hr₂
      have := h.other hr hne₂
      exact absurd (h.exact.eq_of_mem hr hmem (i := r.2) ⟨this.1, le_rfl⟩ ⟨by omega, by omega⟩) hne₁
    · exact ((h.exact.mem prev).mp hmem).joinLeft (differs head o p) (by omega)
        ((link_before ho hp (by omega)).mpr hL) hR
  · intro i hi hpopi
    obtain ⟨r, hr, hri⟩ := h.exact.covers hpopi
    by_cases hne₁ : r = prev
    · rw [hne₁] at hri
      exact ⟨_, (hset _).mpr (.inr rfl), hri.1, by dsimp only; omega⟩
    · have hne₂ : r ≠ it := by
        rintro rfl
        omega
      exact ⟨r, (hset r).mpr (.inl ⟨hr, hne₁, hne₂⟩), hri⟩

/-- A run of one offset stays alone. -/
theorem Found.exact_alone (h : Found head m o it) (ho : o < dmfPerPage) (hp : p ≠ uint32Max)
    (hit : it.1 = o) (hend : it.2 = o) (hL : ¬ JoinsLeft head o p) (hR : ¬ JoinsRight head o p) :
  Exact (Function.update head o p) m
  := by
  rw [← link_at hp] at hR
  have hL' : ∀ i, i + 1 = o → ¬ (lineOf (Function.update head o p)).link i :=
    fun i hi => (link_before ho hp hi).not.mpr hL
  refine exact_of_covers h.exact.sorted ?_ ⟨it, h.mem, h.le, hend.ge⟩
    fun i _ hpop => h.exact.covers hpop
  intro r hr
  by_cases hne : r = it
  · rw [hne, hit, hend]
    apply Line.maxRun_single ((pop_update ho).mpr hp) hL' hR
  · apply h.stay hr hne (hL' r.2) fun _ => hR

end Branches

/-! ### The updates that are followed -/

/-- What is absorbed is the run behind the offset. -/
theorem absorbNext_cases (h : Exact head m) (p k : ℕ) (head' : ℕ → ℕ) :
  absorbNext o p k head' m = (o, m)
    ∨ ∃ e, (o + 1, e) ∈ m ∧ absorbNext o p k head' m = (e, OrderedMap.erase (o + 1) m)
  := by
  unfold absorbNext
  cases habove : OrderedMap.above k m with
  | none => exact .inl rfl
  | some next =>
      obtain ⟨hmem, -⟩ := OrderedMap.above_eq_some h.sorted habove
      dsimp only
      by_cases hcond : next.1 = o + 1 ∧ succ32 p = head' next.1
      · rw [if_pos hcond, ← hcond.1]
        right
        exact ⟨next.2, hmem, rfl⟩
      · rw [if_neg hcond]
        left
        rfl

/-- The runs up to the offset are left alone. -/
structure Kept (m : List (ℕ × ℕ)) (o : ℕ) (next : ℕ × List (ℕ × ℕ)) : Prop where
  sorted : OrderedMap.Sorted next.2
  le : o ≤ next.1
  sub : ∀ r ∈ next.2, r ∈ m
  mem : ∀ r ∈ m, r.1 ≤ o → r ∈ next.2
  last : OrderedMap.last (fun k => decide (k < o)) next.2
    = OrderedMap.last (fun k => decide (k < o)) m

theorem Exact.kept (h : Exact head m) (o p k : ℕ) (head' : ℕ → ℕ) :
  Kept m o (absorbNext o p k head' m)
  := by
  obtain heq | ⟨e, he, heq⟩ := absorbNext_cases (o := o) h p k head'
  · rw [heq]
    exact ⟨h.sorted, le_rfl, fun _ hr => hr, fun _ hr _ => hr, rfl⟩
  · have hle := ((h.mem _).mp he).le
    rw [heq]
    refine ⟨h.sorted.erase _, by dsimp only at *; omega, fun r hr => (OrderedMap.mem_erase.mp hr).1,
      fun r hr hro => OrderedMap.mem_erase.mpr ⟨hr, by omega⟩, ?_⟩
    unfold OrderedMap.last OrderedMap.erase
    rw [List.filter_filter]
    congr 2
    funext r
    rw [Bool.and_eq_left_iff_imp, decide_eq_true_eq, decide_eq_true_eq]
    omega

/-- A run of the new array that begins with the offset. -/
theorem follows_of_first (hm' : Exact (Function.update head o p) m') {e : ℕ} (hr : (o, e) ∈ m')
    (ho : o < dmfPerPage) :
  p ≠ uint32Max ∧ ¬ JoinsLeft head o p
  := by
  have hrun := (hm'.mem _).mp hr
  have hp := (pop_update ho).mp (hrun.pop o le_rfl hrun.le)
  use hp
  intro hL
  have hpos := hL.1
  apply hrun.first (o - 1) (by dsimp only; omega) ((link_before ho hp (by omega)).mpr hL)

/-- A run of the new array that ends with the offset. -/
theorem follows_of_last (hm' : Exact (Function.update head o p) m') {a : ℕ} (hr : (a, o) ∈ m')
    (ho : o < dmfPerPage) :
  p ≠ uint32Max ∧ ¬ JoinsRight head o p
  := by
  have hrun := (hm'.mem _).mp hr
  have hp := (pop_update ho).mp (hrun.pop o hrun.le le_rfl)
  use hp, fun hR => hrun.last ((link_at hp).mpr hR)

/-- The run of one offset, when its update is followed. -/
theorem Found.follows_single (h : Found head m o it) (ho : o < dmfPerPage) (hit : it.1 = o) (hend : it.2 = o)
    {next : ℕ × List (ℕ × ℕ)} (hk : Kept m o next)
    (heq : updateBackward none o p (Function.update head o p) next.2 = .ok m')
    (hm' : Exact (Function.update head o p) m') :
  p ≠ uint32Max ∧ ¬ JoinsRight head o p ∧ ¬ (o ≠ 0 ∧ head (o - 1) = uint32Max ∧ p = 0)
  := by
  have hitmem := hk.mem it h.mem h.le
  unfold updateBackward at heq
  by_cases hpos : o = 0
  · rw [if_neg (fun hc => hc.1 hpos)] at heq
    cases heq
    rw [← Prod.eta it, hend] at hitmem
    obtain ⟨hp, hR⟩ := follows_of_last hm' hitmem ho
    use hp, hR, fun hw => hw.1 hpos
  · have hne : o - 1 ≠ o := by omega
    rw [Function.update_of_ne hne] at heq
    by_cases hsucc : succ32 (head (o - 1)) = p
    · rw [if_pos ⟨hpos, hsucc⟩] at heq
      obtain ⟨prev, hprev, heq⟩ := bind_eq_ok.mp heq
      rw [Option.or_none, orThrow_eq_ok, hk.last] at hprev
      cases heq
      obtain ⟨hmem, hneit, hlt, hpop⟩ := h.prev hend (i := o - 1) (by omega) hprev hit
      by_cases hmax : head (o - 1) = uint32Max
      · have hp : p ≠ uint32Max := by
          rw [← hsucc, hmax]
          decide
        have hprev₂ : ¬ prev.2 + 1 = o := fun hp₂ => (hpop.mpr (by omega)).2 hmax
        rw [if_neg hprev₂] at hm'
        obtain ⟨r, hr, hro⟩ := hm'.covers ((pop_update ho).mpr hp)
        obtain ⟨hr, hr₁⟩ := OrderedMap.mem_erase.mp hr
        have := h.exact.eq_of_mem (hk.sub r hr) h.mem hro ⟨h.le, hend.ge⟩
        exact absurd ((congrArg Prod.fst this).trans hit) hr₁
      · have hprev₂ : prev.2 + 1 = o := by
          have := hpop.mp ⟨by omega, hmax⟩
          omega
        rw [if_pos hprev₂] at hm'
        have hother := h.other hmem hneit
        have hr : (prev.1, o) ∈ OrderedMap.erase o (OrderedMap.set prev.1 o next.2) := by
          rw [OrderedMap.mem_erase, OrderedMap.mem_set]
          use .inr ⟨rfl, prev, hk.mem prev hmem (by omega), rfl⟩, by dsimp only; omega
        obtain ⟨hp, hR⟩ := follows_of_last hm' hr ho
        use hp, hR, fun hw => hmax hw.2.1
    · rw [if_neg (fun hc => hsucc hc.2)] at heq
      cases heq
      rw [← Prod.eta it, hend] at hitmem
      obtain ⟨hp, hR⟩ := follows_of_last hm' hitmem ho
      use hp, hR
      rintro ⟨-, hmax, hzero⟩
      apply hsucc
      rw [hmax, hzero]
      rfl

/-- An update with the right runs is one that is followed. -/
theorem Found.follows (h : Found head m o it) (ho : o < dmfPerPage)
    (heq : updateFrom none it m o p (Function.update head o p) = .ok m')
    (hm' : Exact (Function.update head o p) m') :
  p ≠ uint32Max ∧ FollowsFrom it head o p
  := by
  have hle := h.le
  have hrunle := h.run.le
  have hk := h.exact.kept o p it.1 (Function.update head o p)
  unfold updateFrom at heq
  unfold FollowsFrom
  rw [if_neg (by omega : ¬ it.1 > o)] at heq
  by_cases hgt : o < it.2
  · rw [if_pos hgt] at heq
    rw [if_pos hgt]
    have hr : (o, o) ∈ m' := by
      by_cases hit : it.1 = o
      · rw [if_pos hit] at heq
        dsimp only at heq
        rw [if_pos (by omega : o + 1 ≤ it.2)] at heq
        cases heq
        rw [OrderedMap.mem_insert (h.exact.sorted.set _ _), h.mem_set]
        left
        right
        exact by rw [hit]
      · rw [if_neg hit] at heq
        dsimp only at heq
        rw [if_pos (by omega : o + 1 ≤ it.2)] at heq
        cases heq
        apply (h.mem_inside (by omega) hgt _).mpr (.inr rfl)
    obtain ⟨hp, hL⟩ := follows_of_first hm' hr ho
    use hp, hL, (follows_of_last hm' hr ho).2
  · rw [if_neg hgt] at heq
    rw [if_neg hgt]
    by_cases hext : it.2 + 1 = o ∧ succ32 (Function.update head o p (o - 1)) = p
    · rw [if_pos hext] at heq
      cases heq
      have hr : (it.1, o) ∈ OrderedMap.set it.1 o m := (h.mem_set o).mpr (.inr rfl)
      obtain ⟨hp, hR⟩ := follows_of_last hm' hr ho
      rw [if_neg (by omega)]
      use hp, fun hLR => hR hLR.2
    · rw [if_neg hext] at heq
      dsimp only at heq
      generalize absorbNext o p it.1 (Function.update head o p) m = next at heq hk
      by_cases hend : it.2 = o
      · rw [if_pos hend]
        by_cases hit : it.1 = o
        · rw [if_neg (fun hc => hc.2 hit), if_pos ⟨hend, hit⟩] at heq
          rw [if_neg (by omega)]
          apply h.follows_single ho hit hend hk heq hm'
        · rw [if_pos ⟨hend, hit⟩] at heq
          cases heq
          rw [if_pos (by omega)]
          have hr : (o, next.1) ∈ OrderedMap.insert o next.1
              (OrderedMap.set it.1 (o - 1) next.2) := by
            rw [mem_insert_new (hk.sorted.set _ _)]
            · right
              rfl
            · intro y hy
              obtain ⟨hy, hne⟩ | ⟨rfl, -⟩ := OrderedMap.mem_set.mp hy
              · have := h.other (hk.sub y hy) (fun heq => hne (congrArg Prod.fst heq))
                omega
              · apply hit
          apply follows_of_first hm' hr ho
      · rw [if_neg (fun hc => hend hc.1), if_neg (fun hc => hend hc.1)] at heq
        cases heq
        rw [if_neg hend]
        have hr : (o, next.1) ∈ OrderedMap.insert o next.1 next.2 := by
          rw [mem_insert_new hk.sorted]
          · right
            rfl
          · intro y hy
            by_cases hne : y = it
            · rw [hne]
              omega
            · have := h.other (hk.sub y hy) hne
              omega
        obtain ⟨hp, hL⟩ := follows_of_first hm' hr ho
        use hp, fun hLR => hL hLR.1

/-- An update that is followed keeps the runs. -/
theorem Found.exact_updateFrom (h : Found head m o it) (hhead : ∀ i, head i ≤ uint32Max)
    (ho : o < dmfPerPage) (hp : p < uint32Max) (hf : FollowsFrom it head o p) :
  ∃ m', updateFrom none it m o p (Function.update head o p) = .ok m'
    ∧ Exact (Function.update head o p) m'
  := by
  have hle := h.le
  have hrunle := h.run.le
  unfold updateFrom
  unfold FollowsFrom at hf
  rw [if_neg (by omega : ¬ it.1 > o)]
  by_cases hgt : o < it.2
  · rw [if_pos hgt] at hf ⊢
    by_cases hit : it.1 = o
    · rw [if_pos hit]
      dsimp only
      rw [if_pos (by omega : o + 1 ≤ it.2)]
      exact ⟨_, rfl, h.exact_head ho hp.ne hit hgt hf.1 hf.2⟩
    · rw [if_neg hit]
      dsimp only
      rw [if_pos (by omega : o + 1 ≤ it.2)]
      exact ⟨_, rfl, h.exact_inside ho hp.ne (by omega) hgt hf.1 hf.2⟩
  · rw [if_neg hgt] at hf ⊢
    have hprev : ∀ i, i + 1 = o → Function.update head o p i = head i :=
      fun i hi => Function.update_of_ne (by omega) _ _
    by_cases hext : it.2 + 1 = o ∧ succ32 (Function.update head o p (o - 1)) = p
    · rw [if_pos hext]
      rw [if_neg (by omega)] at hf
      obtain ⟨hend, hsucc⟩ := hext
      have hmax := (h.run.pop it.2 hrunle le_rfl).2
      obtain hi : o - 1 = it.2 := by omega
      rw [hprev _ (by omega), hi, succ32_eq (lt_of_le_of_ne (hhead _) hmax)] at hsucc
      have hL : JoinsLeft head o p := ⟨by omega, by rw [hi]; exact hmax, by rw [hi]; exact hsucc⟩
      exact ⟨_, rfl, h.exact_extend ho hp.ne hend hL fun hR => hf ⟨hL, hR⟩⟩
    · rw [if_neg hext]
      dsimp only
      by_cases hend : it.2 = o
      · rw [if_pos hend] at hf
        by_cases hit : it.1 = o
        · rw [if_neg (by omega)] at hf
          rw [if_neg (fun hc => hc.2 hit), if_pos ⟨hend, hit⟩]
          obtain ⟨hR, hwrap⟩ := hf
          have ha := h.absorbed hend.le hp
          have hsame : (absorbNext o p it.1 (Function.update head o p) m).2 = m := by
            apply ha.sorted.ext h.exact.sorted
            intro r
            rw [ha.mem]
            use And.left, fun hr => ⟨hr, fun hc => hR hc.1⟩
          rw [hsame]
          unfold updateBackward
          by_cases hc : o ≠ 0 ∧ succ32 (Function.update head o p (o - 1)) = p
          · rw [if_pos hc]
            obtain ⟨hpos, hsucc⟩ := hc
            rw [hprev _ (by omega)] at hsucc
            have hmax : head (o - 1) ≠ uint32Max := by
              intro hmax
              rw [hmax, succ32_uint32Max] at hsucc
              apply hwrap ⟨hpos, hmax, hsucc.symm⟩
            rw [succ32_eq (lt_of_le_of_ne (hhead _) hmax)] at hsucc
            have hL : JoinsLeft head o p := ⟨hpos, hmax, hsucc⟩
            cases hlast : OrderedMap.last (fun k => decide (k < o)) m with
            | none =>
                obtain ⟨r, hr, hri⟩ := h.exact.covers (i := o - 1) ⟨by omega, hmax⟩
                have := of_decide_eq_false (OrderedMap.last_eq_none.mp hlast r hr)
                omega
            | some prev =>
                obtain ⟨hprev₂, hexact⟩ := h.exact_backward ho hp.ne hit hend hL hR hlast
                refine ⟨_, bind_eq_ok.mpr ⟨prev, rfl, rfl⟩, ?_⟩
                rw [if_pos hprev₂]
                apply hexact
          · rw [if_neg hc]
            refine ⟨_, rfl, h.exact_alone ho hp.ne hit hend ?_ hR⟩
            intro hL
            apply hc
            use hL.1
            rw [hprev _ (by have := hL.1; omega), succ32_eq (lt_of_le_of_ne (hhead _) hL.2.1)]
            apply hL.2.2
        · rw [if_pos (by omega)] at hf
          rw [if_pos ⟨hend, hit⟩]
          exact ⟨_, rfl, h.exact_tail ho hp (by omega) hend hf⟩
      · rw [if_neg (fun hc => hend hc.1), if_neg (fun hc => hend hc.1)]
        refine ⟨_, rfl, h.exact_absent ho hp (by omega) ?_⟩
        intro hL
        apply hext
        have hpos := hL.1
        have hend' := (h.before (i := o - 1) (by omega) (by omega)).mp ⟨by omega, hL.2.1⟩
        use by omega
        rw [hprev _ (by omega), succ32_eq (lt_of_le_of_ne (hhead _) hL.2.1)]
        apply hL.2.2

end Update

end Dftl

end AppL
