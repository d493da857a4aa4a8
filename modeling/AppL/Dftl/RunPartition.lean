import Mathlib.Data.Finset.Card
import Mathlib.Order.Interval.Finset.Nat
import AppL.Dftl.RunLengths

/-!
# The partition into runs

The scan of a translation page finds the maximal runs of its array.  A sequence of updates, from
the empty page on, leaves these runs and their charge exactly when every update is followed.
-/

namespace AppL

open Transition MaximalRuns

namespace Dftl

/-! ### The scan finds the runs -/

section Scan

variable {head : ℕ → ℕ} {i : ℕ}

/-- The populated offsets below `i`. -/
def populated (head : ℕ → ℕ) (i : ℕ) : Finset ℕ :=
  (Finset.range i).filter fun j => head j ≠ uint32Max

theorem card_populated_le (head : ℕ → ℕ) (i : ℕ) :
  (populated head i).card ≤ i
  := (Finset.card_filter_le _ _).trans_eq (Finset.card_range i)

theorem card_populated_succ (head : ℕ → ℕ) (i : ℕ) :
  (populated head (i + 1)).card
    = (populated head i).card + if head i ≠ uint32Max then 1 else 0
  := by
  unfold populated
  rw [Finset.range_add_one, Finset.filter_insert]
  split
  · rw [Finset.card_insert_of_notMem]
    simp
  · rfl

/-- The run that the scan is in. -/
inductive Current (head : ℕ → ℕ) (i : ℕ) : Option ℕ → ℕ → Prop
  | none {prev : ℕ} (h : ∀ j, j + 1 = i → ¬ (lineOf head).pop j) : Current head i none prev
  | some {start : ℕ} (lt : start < i) (pop : ∀ j, start ≤ j → j < i → (lineOf head).pop j)
      (link : ∀ j, start ≤ j → j + 1 < i → (lineOf head).link j)
      (first : ∀ j, j + 1 = start → ¬ (lineOf head).link j) :
      Current head i (some start) (head (i - 1))

/-- The scan has been made up to `i`. -/
structure Scanned (head : ℕ → ℕ) (i : ℕ) (t : Scan) : Prop where
  sorted : OrderedMap.Sorted t.runLength
  runs : ∀ r ∈ t.runLength, (lineOf head).MaxRun r.1 r.2 ∧ r.2 < t.startOffset.getD i
  covers : ∀ j, j < t.startOffset.getD i → (lineOf head).pop j →
    ∃ r ∈ t.runLength, r.1 ≤ j ∧ j ≤ r.2
  unpopulated : t.unpopulatedNum + (populated head i).card = dmfPerPage
  current : Current head i t.startOffset t.prevPpa

/-- The runs of the list are all that end before `i`, and no other run begins there. -/
structure Ended (head : ℕ → ℕ) (i : ℕ) (l : List (ℕ × ℕ)) : Prop where
  sorted : OrderedMap.Sorted l
  runs : ∀ r ∈ l, (lineOf head).MaxRun r.1 r.2 ∧ r.2 < i
  covers : ∀ j, j < i → (lineOf head).pop j → ∃ r ∈ l, r.1 ≤ j ∧ j ≤ r.2

/-- The scan is in no run. -/
theorem Scanned.ended {l : List (ℕ × ℕ)} {u prev : ℕ} (h : Scanned head i ⟨l, u, prev, none⟩) :
  Ended head i l ∧ ∀ j, j + 1 = i → ¬ (lineOf head).pop j
  := by
  use ⟨h.sorted, h.runs, h.covers⟩
  cases h.current with
  | none hnone => apply hnone

/-- The run that the scan is in ends. -/
theorem Scanned.close {l : List (ℕ × ℕ)} {start u prev : ℕ}
    (h : Scanned head i ⟨l, u, prev, some start⟩) (hlast : ¬ (lineOf head).link (i - 1)) :
  Ended head i (OrderedMap.insert start (i - 1) l)
  := by
  obtain ⟨hsorted, hruns, hcovers, -, hcurrent⟩ := h
  dsimp only [Option.getD] at *
  cases hcurrent with
  | some lt pop link first =>
      have hmem : ∀ r, r ∈ OrderedMap.insert start (i - 1) l ↔ r ∈ l ∨ r = (start, i - 1) := by
        intro r
        apply mem_insert_new hsorted
        intro y hy
        obtain ⟨hrun, hlt⟩ := hruns y hy
        have := hrun.le
        omega
      constructor
      · apply hsorted.insert
      · intro r hr
        obtain hr | rfl := (hmem r).mp hr
        · use (hruns r hr).1, (hruns r hr).2.trans lt
        · exact ⟨⟨by omega, fun j hj hj' => pop j hj (by omega),
            fun j hj hj' => link j hj (by omega), first, hlast⟩, by dsimp only; omega⟩
      · intro j hj hpop
        rcases Nat.lt_or_ge j start with hlt | hge
        · obtain ⟨r, hr, hle, hle'⟩ := hcovers j hlt hpop
          use r, (hmem r).mpr (.inl hr), hle
        · use (start, i - 1), (hmem _).mpr (.inr rfl), hge
          dsimp only
          omega

/-- An offset that is not populated belongs to no run. -/
theorem Ended.skip {l : List (ℕ × ℕ)} {u prev : ℕ} (h : Ended head i l)
    (hmax : head i = uint32Max) (hu : u + (populated head i).card = dmfPerPage) :
  Scanned head (i + 1) ⟨l, u, prev, none⟩
  := by
  have hpop : ¬ (lineOf head).pop i := fun hpop => hpop.2 hmax
  constructor
  · apply h.sorted
  · intro r hr
    use (h.runs r hr).1, (h.runs r hr).2.trans (Nat.lt_succ_self i)
  · intro j hj hpopj
    rcases Nat.lt_succ_iff_lt_or_eq.mp hj with hlt | rfl
    · apply h.covers j hlt hpopj
    · contradiction
  · rw [card_populated_succ, if_neg (not_not.mpr hmax)]
    apply hu
  · apply Current.none
    intro j hj
    obtain rfl : j = i := by omega
    apply hpop

/-- A populated offset that does not continue a run begins one. -/
theorem Ended.start {l : List (ℕ × ℕ)} {u : ℕ} (h : Ended head i l)
    (hmax : head i ≠ uint32Max) (hi : i < dmfPerPage)
    (hu : u + (populated head i).card = dmfPerPage)
    (hfirst : ∀ j, j + 1 = i → ¬ (lineOf head).link j) :
  Scanned head (i + 1) ⟨l, u - 1, head i, some i⟩
  := by
  have hcard := card_populated_le head i
  constructor
  · apply h.sorted
  · apply h.runs
  · apply h.covers
  · rw [card_populated_succ, if_pos hmax]
    dsimp only
    omega
  · apply Current.some (Nat.lt_succ_self i) _ _ hfirst
    · intro j hj hj'
      obtain rfl : j = i := by omega
      use hi, hmax
    · intro j hj hj'
      omega

/-- A populated offset whose address is the next one continues the run. -/
theorem Scanned.extend {l : List (ℕ × ℕ)} {u prev start : ℕ}
    (h : Scanned head i ⟨l, u, prev, some start⟩) (hmax : head i ≠ uint32Max)
    (hi : i < dmfPerPage) (hsucc : head (i - 1) + 1 = head i) :
  Scanned head (i + 1) ⟨l, u - 1, head i, some start⟩
  := by
  have hcard := card_populated_le head i
  have hu := h.unpopulated
  constructor
  · apply h.sorted
  · apply h.runs
  · apply h.covers
  · rw [card_populated_succ, if_pos hmax]
    dsimp only at hu ⊢
    omega
  · cases h.current with
    | some lt pop link first =>
        have hsub : i - 1 + 1 = i := Nat.sub_add_cancel (by omega)
        apply Current.some (Nat.lt_succ_of_lt lt) _ _ first
        · intro j hj hj'
          rcases Nat.lt_succ_iff_lt_or_eq.mp hj' with hlt | rfl
          · apply pop j hj hlt
          · use hi, hmax
        · intro j hj hj'
          rcases Nat.lt_or_ge (j + 1) i with hlt | hge
          · apply link j hj hlt
          · obtain rfl : j = i - 1 := by omega
            refine ⟨by omega, (pop (i - 1) (by omega) (by omega)).2, ?_, ?_⟩
            · rw [hsub]
              apply hmax
            · rw [hsub]
              apply hsucc.symm

theorem scanStep_scanned {t : Scan} (hhead : ∀ i, head i ≤ uint32Max) (h : Scanned head i t)
    (hi : i < dmfPerPage) :
  Scanned head (i + 1) (scanStep head t i)
  := by
  have hu := h.unpopulated
  obtain ⟨l, u, prev, start⟩ := t
  unfold scanStep
  by_cases hmax : head i = uint32Max
  · rw [if_pos hmax]
    cases start with
    | none => apply h.ended.1.skip hmax hu
    | some start =>
        have hlast : ¬ (lineOf head).link (i - 1) := by
          rintro ⟨-, -, hne, -⟩
          cases h.current with
          | some lt =>
              rw [Nat.sub_add_cancel (by omega)] at hne
              apply hne hmax
        apply (h.close hlast).skip hmax hu
  · rw [if_neg hmax]
    cases start with
    | none =>
        obtain ⟨hended, hnone⟩ := h.ended
        apply hended.start hmax hi hu
        intro j hj hlink
        apply hnone j hj ((lineOf head).left j hlink)
    | some start =>
        obtain ⟨hprev, hpos, hpop⟩ : prev = head (i - 1) ∧ 0 < i ∧ (lineOf head).pop (i - 1) := by
          cases h.current with
          | some lt pop => exact ⟨rfl, by omega, pop (i - 1) (by omega) (by omega)⟩
        have hsucc : succ32 prev = head (i - 1) + 1 := by
          rw [hprev]
          apply succ32_eq (lt_of_le_of_ne (hhead _) hpop.2)
        dsimp only
        rw [hsucc]
        split
        · rename_i heq
          rw [heq]
          apply h.extend hmax hi heq
        · rename_i hne
          have hlast : ¬ (lineOf head).link (i - 1) := by
            rintro ⟨-, -, -, heq⟩
            rw [Nat.sub_add_cancel hpos] at heq
            apply hne heq.symm
          apply (h.close hlast).start hmax hi hu
          intro j hj
          obtain rfl : j = i - 1 := by omega
          apply hlast

/-- The scan finds the maximal runs of the array, and counts the offsets that are not
populated. -/
theorem make_exact (hhead : ∀ i, head i ≤ uint32Max) :
  Exact head (makeScFromTranslation head).runLength
    ∧ (makeScFromTranslation head).unpopulatedNum + (populated head dmfPerPage).card = dmfPerPage
  := by
  have hscan : ∀ i ≤ dmfPerPage,
      Scanned head i ((List.range i).foldl (scanStep head) ⟨[], dmfPerPage, uint32Max, none⟩) := by
    intro i
    induction i with
    | zero =>
        intro _
        refine ⟨List.Pairwise.nil, ?_, ?_, rfl, .none ?_⟩
        · intro r hr
          cases hr
        · intro j hj
          exact absurd hj (Nat.not_lt_zero j)
        · intro j hj
          omega
    | succ i ih =>
        intro hi
        rw [List.range_succ, List.foldl_append]
        apply scanStep_scanned hhead (ih (by omega)) hi
  have h := hscan dmfPerPage le_rfl
  unfold makeScFromTranslation
  generalize (List.range dmfPerPage).foldl (scanStep head) ⟨[], dmfPerPage, uint32Max, none⟩ = t at h
  obtain ⟨l, u, prev, start⟩ := t
  refine ⟨?_, h.unpopulated⟩
  cases start with
  | none =>
      obtain ⟨hsorted, hruns, hcovers, -, -⟩ := h
      exact ⟨hsorted, Line.mem_iff_of_covers (fun r hr => (hruns r hr).1)
        fun j hj => hcovers j (pop_lt hj) hj⟩
  | some start =>
      obtain ⟨hsorted, hruns, hcovers⟩ := h.close (by
        rintro ⟨hlt, -⟩
        unfold dmfPerPage pagesize at hlt
        omega)
      exact ⟨hsorted, Line.mem_iff_of_covers (fun r hr => (hruns r hr).1)
        fun j hj => hcovers j (pop_lt hj) hj⟩

end Scan

/-! ### Sequences of updates -/

section Updates

variable {sc sc' : SftlCache} {o p : ℕ}

/-- An update of an entry of the page. -/
def Update (u : ℕ × ℕ) : Prop := u.1 < dmfPerPage ∧ u.2 ≤ uint32Max
  deriving Decidable

/-- The arrays of a page are those of its runs. -/
structure Valid (sc : SftlCache) : Prop where
  head : ∀ i, sc.headArray i ≤ uint32Max
  exact : Exact sc.headArray sc.runLength
  unpopulated : sc.unpopulatedNum + (populated sc.headArray dmfPerPage).card = dmfPerPage

/-- The runs partition the populated offsets, and they and the charge of the page are what the
scan of its array finds. -/
structure Partition (sc : SftlCache) : Prop where
  bounds : ∀ r ∈ sc.runLength, r.1 ≤ r.2 ∧ r.2 < dmfPerPage
  disjoint : sc.runLength.Pairwise fun r r' => r.2 < r'.1
  covers : ∀ i < dmfPerPage,
    sc.headArray i ≠ uint32Max ↔ ∃ r ∈ sc.runLength, r.1 ≤ i ∧ i ≤ r.2
  consecutive : ∀ r ∈ sc.runLength, ∀ i, r.1 ≤ i → i < r.2 →
    sc.headArray (i + 1) = sc.headArray i + 1
  scratch : sc.runLength = (makeScFromTranslation sc.headArray).runLength
  charge : sc.gtdSize = (makeScFromTranslation sc.headArray).gtdSize

theorem Valid.partition (h : Valid sc) :
  Partition sc
  := by
  obtain ⟨hmake, hcount⟩ := make_exact h.head
  have hscratch := h.exact.unique hmake
  have hpop : ∀ r ∈ sc.runLength, (lineOf sc.headArray).MaxRun r.1 r.2 :=
    fun r hr => (h.exact.mem r).mp hr
  refine ⟨?_, ?_, ?_, ?_, hscratch, ?_⟩
  · intro r hr
    have hrun := hpop r hr
    use hrun.le, pop_lt (hrun.pop r.2 hrun.le le_rfl)
  · apply h.exact.sorted.imp_of_mem
    intro r r' hr hr' hlt
    by_contra hnot
    have hle := (hpop r' hr').le
    have := h.exact.eq_of_mem hr hr' (i := r'.1) ⟨hlt.le, by omega⟩ ⟨le_rfl, hle⟩
    rw [this] at hlt
    apply lt_irrefl _ hlt
  · intro i hi
    constructor
    · intro hne
      apply h.exact.covers ⟨hi, hne⟩
    · rintro ⟨r, hr, hri⟩
      exact ((hpop r hr).pop i hri.1 hri.2).2
  · intro r hr i hi hi'
    exact ((hpop r hr).link i hi hi').2.2.2
  · unfold SftlCache.gtdSize
    have hunpop := h.unpopulated
    rw [← hscratch, Nat.add_right_cancel (hunpop.trans hcount.symm)]

theorem Partition.valid (h : Partition sc) (hhead : ∀ i, sc.headArray i ≤ uint32Max) :
  Valid sc
  := by
  obtain ⟨hmake, hcount⟩ := make_exact hhead
  have hcharge := h.charge
  unfold SftlCache.gtdSize at hcharge
  rw [← h.scratch] at hmake hcharge
  use hhead, hmake
  omega

theorem valid_initial :
  Valid .initial
  where
    head _ := le_rfl
    exact := by
      refine ⟨List.Pairwise.nil, Line.mem_iff_of_covers ?_ ?_⟩
      · intro r hr
        cases hr
      · intro i hi
        exact absurd rfl hi.2
    unpopulated := by
      unfold populated
      rw [Finset.filter_false_of_mem]
      · rfl
      · intro i _ hne
        apply hne rfl

theorem head_update_le (h : Valid sc) (hp : p ≤ uint32Max) (i : ℕ) :
  Function.update sc.headArray o p i ≤ uint32Max
  := by
  by_cases hi : i = o
  · rw [hi, Function.update_self]
    apply hp
  · rw [Function.update_of_ne hi]
    apply h.head i

/-- The updates with the right runs are those that are followed. -/
theorem updateRunLength_iff (h : Valid sc) (ho : o < dmfPerPage) (hp : p ≤ uint32Max) :
  (∃ m', updateRunLength sc.runLength o p (Function.update sc.headArray o p) = .ok m'
    ∧ Exact (Function.update sc.headArray o p) m') ↔ Follows sc (o, p)
  := by
  have hexact := h.exact
  unfold updateRunLength updateRunLengthWith Follows
  dsimp only
  rw [Option.or_none]
  by_cases hm : sc.runLength = []
  · rw [hm] at hexact ⊢
    constructor
    · rintro ⟨m', heq, hm'⟩
      cases heq
      have hr : (o, o) ∈ OrderedMap.insert o o [] := List.mem_singleton_self _
      exact ⟨(follows_of_last hm' hr ho).1, rfl⟩
    · rintro ⟨hne, -⟩
      exact ⟨_, rfl, exact_first hexact ho hne⟩
  · rw [if_neg (fun hlen => hm (List.length_eq_zero_iff.mp hlen))]
    cases hlast : OrderedMap.last (fun k => decide (k ≤ o)) sc.runLength with
    | none =>
        constructor
        · rintro ⟨m', heq, -⟩
          cases heq
        · rintro ⟨-, hnil⟩
          exact absurd hnil hm
    | some it =>
        have hfound := hexact.found hlast
        constructor
        · rintro ⟨m', heq, hm'⟩
          apply hfound.follows ho heq hm'
        · rintro ⟨hne, hf⟩
          apply hfound.exact_updateFrom h.head ho (lt_of_le_of_ne hp hne) hf

/-- An update populates the offset. -/
theorem card_populated_update (head : ℕ → ℕ) (ho : o < dmfPerPage) (hp : p ≠ uint32Max) :
  (populated (Function.update head o p) dmfPerPage).card
    = (populated head dmfPerPage).card + if head o = uint32Max then 1 else 0
  := by
  have hmem : ∀ i, i ∈ populated head dmfPerPage ↔ i < dmfPerPage ∧ head i ≠ uint32Max := by
    intro i
    rw [populated, Finset.mem_filter, Finset.mem_range]
  have hinsert : populated (Function.update head o p) dmfPerPage
      = insert o (populated head dmfPerPage) := by
    ext i
    rw [Finset.mem_insert, hmem, populated, Finset.mem_filter, Finset.mem_range]
    by_cases hi : i = o
    · rw [hi, Function.update_self]
      simp only [ho, hp, ne_eq, not_false_eq_true, and_self, true_or]
    · rw [Function.update_of_ne hi]
      simp only [hi, false_or]
  rw [hinsert]
  split
  · rename_i hmax
    rw [Finset.card_insert_of_notMem]
    rw [hmem]
    exact fun hc => hc.2 hmax
  · rename_i hne
    rw [Finset.insert_eq_of_mem ((hmem o).mpr ⟨ho, hne⟩), Nat.add_zero]

/-- The count of the offsets that are not populated is kept. -/
theorem Valid.unpopulated_update (h : Valid sc) (ho : o < dmfPerPage) (hp : p ≠ uint32Max) :
  (if sc.headArray o = uint32Max ∧ sc.unpopulatedNum ≠ 0 then sc.unpopulatedNum - 1
    else sc.unpopulatedNum)
    + (populated (Function.update sc.headArray o p) dmfPerPage).card = dmfPerPage
  := by
  have hcard := card_populated_update sc.headArray ho hp
  have hle := card_populated_le (Function.update sc.headArray o p) dmfPerPage
  have hunpop := h.unpopulated
  by_cases hmax : sc.headArray o = uint32Max
  · rw [if_pos hmax] at hcard
    rw [if_pos ⟨hmax, by omega⟩]
    omega
  · rw [if_neg hmax] at hcard
    rw [if_neg (fun hc => hmax hc.1)]
    omega

/-- An update is right exactly when it is followed. -/
theorem update_iff (h : Valid sc) {u : ℕ × ℕ} (hu : Update u) :
  (∃ sc', sc.update u.1 u.2 = .ok sc' ∧ Valid sc') ↔ Follows sc u
  := by
  obtain ⟨o, p⟩ := u
  obtain ⟨ho, hp⟩ := hu
  constructor
  · rintro ⟨sc', heq, hvalid⟩
    obtain ⟨m', hm', heq⟩ := bind_eq_ok.mp heq
    cases heq
    apply (updateRunLength_iff h ho hp).mp ⟨m', hm', hvalid.exact⟩
  · intro hf
    obtain ⟨m', heq, hm'⟩ := (updateRunLength_iff h ho hp).mpr hf
    exact ⟨_, bind_eq_ok.mpr ⟨m', heq, rfl⟩, head_update_le h hp, hm',
      h.unpopulated_update ho hf.1⟩

/-- The step of a run of updates. -/
def step (sc : SftlCache) (u : ℕ × ℕ) : Except Abort SftlCache := sc.update u.1 u.2

/-- Every prefix of the updates can be made, and leaves a partition. -/
def Partitions (sc : SftlCache) (updates : List (ℕ × ℕ)) : Prop :=
  ∀ l, l <+: updates → ∃ sc', run step sc l = .ok sc' ∧ Partition sc'

theorem partitions_iff (h : Valid sc) {updates : List (ℕ × ℕ)} (hu : ∀ u ∈ updates, Update u) :
  Partitions sc updates ↔ Guarded step Follows sc updates
  := by
  induction updates generalizing sc with
  | nil =>
      constructor
      · intro _
        trivial
      · intro _ l hl
        rw [List.prefix_nil.mp hl]
        exact ⟨sc, rfl, h.partition⟩
  | cons u updates ih =>
      have hu₁ := hu u List.mem_cons_self
      have hrest := fun u' hu' => hu u' (List.mem_cons_of_mem u hu')
      constructor
      · intro hparts
        obtain ⟨sc', hrun, hpart⟩ := hparts [u] ⟨updates, rfl⟩
        obtain ⟨sc₁, hstep, hrun⟩ := run_cons_eq_ok.mp hrun
        cases hrun
        obtain ⟨_, _, heq⟩ := bind_eq_ok.mp hstep
        have hvalid : Valid sc' := by
          apply hpart.valid
          cases heq
          apply head_update_le h hu₁.2
        use (update_iff h hu₁).mp ⟨sc', hstep, hvalid⟩
        rw [hstep]
        apply (ih hvalid hrest).mp
        intro l hl
        obtain ⟨t, ht, hpart'⟩ := hparts (u :: l) (List.cons_prefix_cons.mpr ⟨rfl, hl⟩)
        obtain ⟨sc₂, hstep', ht⟩ := run_cons_eq_ok.mp ht
        rw [hstep] at hstep'
        cases hstep'
        exact ⟨t, ht, hpart'⟩
      · rintro ⟨hf, hG⟩ l hl
        obtain ⟨sc', hstep, hvalid⟩ := (update_iff h hu₁).mpr hf
        change step sc u = .ok sc' at hstep
        rw [hstep] at hG
        cases l with
        | nil => exact ⟨sc, rfl, h.partition⟩
        | cons u' l =>
            obtain ⟨rfl, hl'⟩ := List.cons_prefix_cons.mp hl
            obtain ⟨t, ht, hpart⟩ := (ih hvalid hrest).mpr hG l hl'
            exact ⟨t, run_cons_eq_ok.mpr ⟨sc', hstep, ht⟩, hpart⟩

/-- From the empty page on, all states have the partition of the scan exactly when every update
is followed. -/
theorem partitions_initial_iff {updates : List (ℕ × ℕ)} (hu : ∀ u ∈ updates, Update u) :
  Partitions .initial updates ↔ Guarded step Follows .initial updates
  := partitions_iff valid_initial hu

/-- Two consecutive addresses, an overwrite of the first one, and an address far behind. -/
theorem partitions_initial_fourUpdates :
  Partitions .initial [(0, 10), (1, 11), (0, 20), (7, 3)]
  := by
  apply (partitions_initial_iff (by decide)).mpr
  decide

/-- The offset `2` continues the run that the offset `1` has been joined with, and is in no
run. -/
theorem not_partitions_initial :
  (∀ u ∈ [(0, 10), (1, 50), (2, 12), (1, 11)], Update u)
    ∧ ¬ Partitions .initial [(0, 10), (1, 50), (2, 12), (1, 11)]
  := by
  use by decide
  intro h
  obtain ⟨sc, hrun, hpart⟩ := h _ (List.prefix_refl _)
  cases hrun
  obtain ⟨r, hr, hri⟩ := (hpart.covers 2 (by decide)).mp (by decide)
  obtain rfl := List.mem_singleton.mp (hr : r ∈ [(0, 1)])
  exact absurd hri (by decide)

end Updates

end Dftl

end AppL
