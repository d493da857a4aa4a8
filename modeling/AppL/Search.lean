import AppL.Lsm.SortedTable
import AppL.Lib.Transition

/-!
# The binary searches of the search template

`bs_search` looks for an element of a sorted array, and `bs_lower_bound` for the first one that
is not below a target.  The bounds of `bs_search` are unsigned and its upper bound is the index
of the last element, so that it leaves the array when a caller passes the number of elements,
or when the target is below all of them.
-/

namespace AppL

open Transition

/-- A conversion to `uint32_t`. -/
def uint32 (z : ℤ) : ℕ := (z % 2 ^ 32).toNat

theorem uint32_of_lt {z : ℤ} (h₀ : 0 ≤ z) (h : z < 2 ^ 32) :
  (uint32 z : ℤ) = z
  := by
  unfold uint32
  rw [Int.emod_eq_of_lt h₀ h]
  apply Int.toNat_of_nonneg h₀

section Search

variable {α τ : Type}

/-- The loop of `bs_search` between `s` and `e`.  It makes one turn for every index between
them at most, unless `e` has gone below zero. -/
def bsSearchLoop (cmp : α → τ → ℤ) (body : List α) (target : τ) : ℕ → ℕ → ℕ → Except Abort ℕ
  | 0, _, _ => .error .endlessLoop
  | fuel + 1, s, e =>
      if s ≤ e then do
        let mid := uint32 (s + e) / 2
        let x ← orThrow .outOfBounds body[mid]?
        let res := cmp x target
        if res = 0 then
          return mid
        else if res < 0 then
          bsSearchLoop cmp body target fuel (uint32 (mid + 1)) e
        else
          bsSearchLoop cmp body target fuel s (uint32 (mid - 1))
      else
        .ok uint32Max

/-- `bs_search` from `s` to `m` in the elements `body` of an array. -/
def bsSearch (cmp : α → τ → ℤ) (body : List α) (s m : ℕ) (target : τ) : Except Abort ℕ :=
  bsSearchLoop cmp body target (m + 2) s m

/-- The loop of `bs_lower_bound`. -/
def bsLowerBoundLoop (cmp : α → τ → ℤ) (body : List α) (target : τ) :
    ℕ → ℕ → ℕ → Except Abort ℕ
  | 0, s, e => if s < e then .error .endlessLoop else .ok s
  | fuel + 1, s, e =>
      if s < e then do
        let mid := s + (e - s) / 2
        let x ← orThrow .outOfBounds body[mid]?
        if 0 ≤ cmp x target then
          bsLowerBoundLoop cmp body target fuel s mid
        else
          bsLowerBoundLoop cmp body target fuel (mid + 1) e
      else
        .ok s

/-- `bs_lower_bound` from `s` to `m`; `stop` is `m + 1`. -/
def bsLowerBound (cmp : α → τ → ℤ) (body : List α) (s stop : ℕ) (target : τ) : Except Abort ℕ :=
  bsLowerBoundLoop cmp body target (stop - s) s stop

/-! ### Lower bounds -/

/-- The comparison goes from negative to not negative along the array at most once. -/
def Split (cmp : α → τ → ℤ) (body : List α) (stop : ℕ) (target : τ) : Prop :=
  ∀ (i j : ℕ) (x y : α), i < j → j < stop → body[i]? = some x → body[j]? = some y →
    cmp y target < 0 → cmp x target < 0

/-- `bs_lower_bound` finds the place where the comparison stops to be negative. -/
theorem bsLowerBoundLoop_spec {cmp : α → τ → ℤ} {body : List α} {stop : ℕ} {target : τ}
    (hsplit : Split cmp body stop target) (hstop : stop ≤ body.length) (fuel : ℕ) :
  ∀ {s e : ℕ}, e ≤ s + fuel → s ≤ e → e ≤ stop →
    (∀ i x, i < s → body[i]? = some x → cmp x target < 0) →
    (∀ i x, e ≤ i → i < stop → body[i]? = some x → 0 ≤ cmp x target) →
    ∃ r, bsLowerBoundLoop cmp body target fuel s e = .ok r ∧ r ≤ stop ∧
      (∀ i x, i < r → body[i]? = some x → cmp x target < 0) ∧
      ∀ i x, r ≤ i → i < stop → body[i]? = some x → 0 ≤ cmp x target
  := by
  induction fuel with
  | zero =>
      intro s e hf hse he hbelow habove
      refine ⟨s, ?_, by omega, hbelow, fun i x hi => habove i x (by omega)⟩
      rw [bsLowerBoundLoop, if_neg (by omega)]
  | succ fuel ih =>
      intro s e hf hse he hbelow habove
      unfold bsLowerBoundLoop
      split
      · rename_i hlt
        obtain ⟨mid, hm⟩ : ∃ x, body[s + (e - s) / 2]? = some x :=
          ⟨_, List.getElem?_eq_getElem (by omega)⟩
        simp only [hm, orThrow, bind, Except.bind]
        split
        · rename_i hge
          apply ih (by omega) (by omega) (by omega) hbelow
          intro i x hi his hx
          rcases Nat.lt_or_eq_of_le hi with hlt' | rfl
          · by_contra hneg
            exact absurd (hsplit _ i mid x hlt' his hm hx (not_le.mp hneg)) (not_lt.mpr hge)
          · rw [hm] at hx
            cases hx
            apply hge
        · rename_i hneg
          apply ih (by omega) (by omega) he _ habove
          intro i x hi hx
          rcases Nat.lt_or_eq_of_le (Nat.le_of_lt_succ hi) with hlt' | rfl
          · apply hsplit i _ x mid hlt' (by omega) hx hm (not_le.mp hneg)
          · rw [hm] at hx
            cases hx
            apply not_le.mp hneg
      · refine ⟨s, rfl, by omega, hbelow, fun i x hi => habove i x (by omega)⟩

theorem bsLowerBound_spec {cmp : α → τ → ℤ} {body : List α} {stop : ℕ} {target : τ}
    (hsplit : Split cmp body stop target) (hstop : stop ≤ body.length) :
  ∃ r, bsLowerBound cmp body 0 stop target = .ok r ∧ r ≤ stop ∧
    (∀ i x, i < r → body[i]? = some x → cmp x target < 0) ∧
    ∀ i x, r ≤ i → i < stop → body[i]? = some x → 0 ≤ cmp x target
  := by
  apply bsLowerBoundLoop_spec hsplit hstop _ (by omega) (Nat.zero_le _) (Nat.le_refl _)
  · intro i x hi
    omega
  · intro i x hi his
    omega

/-! ### Searches -/

/-- The comparison is that of the keys. -/
def Compares (cmp : α → ℕ → ℤ) (key : α → ℕ) : Prop :=
  ∀ x target, (cmp x target < 0 ↔ key x < target) ∧ (cmp x target = 0 ↔ key x = target)

/-- What a search is meant to give: the index of an element with the key, or `UINT32_MAX` when
there is none. -/
def Finds (key : α → ℕ) (body : List α) (target : ℕ) (res : Except Abort ℕ) : Prop :=
  ∃ idx, res = .ok idx ∧
    ((∃ x ∈ body, key x = target) → ∃ x, body[idx]? = some x ∧ key x = target) ∧
    ((∀ x ∈ body, key x ≠ target) → idx = uint32Max)

/-- The target is neither below the first element nor above the last one. -/
def Spans (key : α → ℕ) (body : List α) (target : ℕ) : Prop :=
  (∃ x, body.head? = some x ∧ key x ≤ target) ∧ ∃ x, body.getLast? = some x ∧ target ≤ key x

variable {cmp : α → ℕ → ℤ} {key : α → ℕ} {body : List α} {target : ℕ}

theorem not_finds_error {e : Abort} :
  ¬ Finds key body target (.error e)
  := by
  rintro ⟨idx, h, -⟩
  cases h

/-- The index in the middle, when the sum of the bounds is an `uint32_t`. -/
theorem mid_eq {s e : ℕ} (h : s + e < 2 ^ 32) :
  uint32 (s + e) / 2 = (s + e) / 2
  := by
  have hcast := uint32_of_lt (z := (s + e : ℤ)) (by omega) (by omega)
  omega

theorem bsSearchLoop_step {fuel s e mid : ℕ} {x : α} (hse : s ≤ e)
    (hmid : uint32 (s + e) / 2 = mid) (hx : body[mid]? = some x) :
  bsSearchLoop cmp body target (fuel + 1) s e
    = if cmp x target = 0 then .ok mid
      else if cmp x target < 0 then bsSearchLoop cmp body target fuel (uint32 (mid + 1)) e
      else bsSearchLoop cmp body target fuel s (uint32 (mid - 1))
  := by
  rw [bsSearchLoop, if_pos hse]
  simp only [hmid, hx, orThrow, bind, Except.bind, pure, Except.pure]

theorem bsSearchLoop_outside {fuel s e : ℕ} (hse : s ≤ e)
    (hmid : body.length ≤ uint32 (s + e) / 2) :
  bsSearchLoop cmp body target (fuel + 1) s e = .error .outOfBounds
  := by
  rw [bsSearchLoop, if_pos hse]
  simp only [List.getElem?_eq_none hmid, orThrow, bind, Except.bind]

theorem sorted_le (hsorted : body.Pairwise fun a b => key a ≤ key b) {i j : ℕ} {x y : α}
    (hij : i ≤ j) (hi : body[i]? = some x) (hj : body[j]? = some y) :
  key x ≤ key y
  := by
  obtain ⟨hi', rfl⟩ := List.getElem?_eq_some_iff.mp hi
  obtain ⟨hj', rfl⟩ := List.getElem?_eq_some_iff.mp hj
  rcases Nat.lt_or_eq_of_le hij with hlt | rfl
  · apply List.pairwise_iff_getElem.mp hsorted i j hi' hj' hlt
  · apply Nat.le_refl _

/-- The search goes on between the elements below the target and those above it, and ends with
the element or with `UINT32_MAX`. -/
theorem bsSearchLoop_finds (hcmp : Compares cmp key)
    (hsorted : body.Pairwise fun a b => key a ≤ key b) (hlen : body.length < 2 ^ 31) {first : α}
    (hfirst : body[0]? = some first) (hle : key first ≤ target) (fuel : ℕ) :
  ∀ {s e : ℕ}, e + 1 < s + fuel → s ≤ e + 1 → e ≤ body.length →
    (e = body.length → ∃ x, body[body.length - 1]? = some x ∧ target ≤ key x) →
    (∀ i x, i < s → body[i]? = some x → key x < target) →
    (∀ i x, e < i → body[i]? = some x → target < key x) →
    Finds key body target (bsSearchLoop cmp body target fuel s e)
  := by
  induction fuel with
  | zero =>
      intro s e hf hse
      omega
  | succ fuel ih =>
      intro s e hf hse he hlast hbelow habove
      have hpos := (List.getElem?_eq_some_iff.mp hfirst).1
      by_cases hlt : s ≤ e
      · have hmid : (s + e) / 2 < body.length := by
          rcases Nat.lt_or_eq_of_le he with he' | he'
          · omega
          · obtain ⟨x, hx, htx⟩ := hlast he'
            have hs : ¬ body.length - 1 < s := fun h =>
              absurd (hbelow _ x h hx) (not_lt.mpr htx)
            omega
        obtain ⟨x, hx⟩ : ∃ x, body[(s + e) / 2]? = some x :=
          ⟨_, List.getElem?_eq_getElem hmid⟩
        rw [bsSearchLoop_step hlt (mid_eq (by omega)) hx]
        obtain ⟨hneg, hzero⟩ := hcmp x target
        split
        · rename_i hres
          refine ⟨_, rfl, fun _ => ⟨x, hx, hzero.mp hres⟩, fun hnone => ?_⟩
          exact absurd (hzero.mp hres) (hnone x (List.mem_of_getElem? hx))
        · rename_i hne
          split
          · rename_i hres
            have hsucc := uint32_of_lt (z := (((s + e) / 2 : ℕ) + 1 : ℤ)) (by omega) (by omega)
            apply ih (by omega) (by omega) he hlast _ habove
            intro i y hi hy
            apply (sorted_le hsorted (by omega) hy hx).trans_lt (hneg.mp hres)
          · rename_i hres
            have hxt : target < key x := by
              have h₁ := mt hneg.mpr hres
              have h₂ := mt hzero.mpr hne
              omega
            have hmid0 : (s + e) / 2 ≠ 0 := by
              intro h0
              rw [h0, hfirst] at hx
              cases hx
              omega
            have hpred := uint32_of_lt (z := (((s + e) / 2 : ℕ) - 1 : ℤ)) (by omega) (by omega)
            apply ih (by omega) (by omega) (by omega) _ hbelow
            · intro i y hi hy
              apply hxt.trans_le (sorted_le hsorted (by omega) hx hy)
            · intro heq
              omega
      · rw [bsSearchLoop, if_neg hlt]
        refine ⟨_, rfl, ?_, fun _ => rfl⟩
        rintro ⟨x, hx, hxt⟩
        obtain ⟨i, hi⟩ := List.mem_iff_getElem?.mp hx
        rcases Nat.lt_or_ge i s with his | his
        · have := hbelow i x his hi
          omega
        · have := habove i x (by omega) hi
          omega

/-- A search for a target below all elements leaves the array. -/
theorem bsSearchLoop_below (hcmp : Compares cmp key)
    (hall : ∀ x ∈ body, target < key x) (fuel : ℕ) :
  ∀ {e : ℕ}, e < 2 ^ 32 → ∃ err, bsSearchLoop cmp body target fuel 0 e = .error err
  := by
  induction fuel with
  | zero =>
      intro e _
      exact ⟨_, rfl⟩
  | succ fuel ih =>
      intro e he
      have hmid := mid_eq (s := 0) (e := e) (by omega)
      by_cases hout : body.length ≤ (0 + e) / 2
      · exact ⟨_, bsSearchLoop_outside (Nat.zero_le e) (hmid ▸ hout)⟩
      · obtain ⟨x, hx⟩ : ∃ x, body[(0 + e) / 2]? = some x :=
          ⟨_, List.getElem?_eq_getElem (not_le.mp hout)⟩
        rw [bsSearchLoop_step (Nat.zero_le e) hmid hx]
        have hxt := hall x (List.mem_of_getElem? hx)
        obtain ⟨hneg, hzero⟩ := hcmp x target
        rw [if_neg (mt hzero.mp (by omega)), if_neg (mt hneg.mp (by omega))]
        apply ih
        unfold uint32
        have := Int.emod_lt_of_pos (((0 + e) / 2 : ℕ) - 1 : ℤ) (b := 2 ^ 32) (by decide)
        omega

/-- A search for a target above all elements reads behind them, when the upper bound is not an
index of the array. -/
theorem bsSearchLoop_above (hcmp : Compares cmp key) (hlen : body.length < 2 ^ 31)
    (hall : ∀ x ∈ body, key x < target) (fuel : ℕ) :
  ∀ {s : ℕ}, s ≤ body.length →
    ∃ err, bsSearchLoop cmp body target fuel s body.length = .error err
  := by
  induction fuel with
  | zero =>
      intro s _
      exact ⟨_, rfl⟩
  | succ fuel ih =>
      intro s hs
      have hmid := mid_eq (s := s) (e := body.length) (by omega)
      by_cases hout : body.length ≤ (s + body.length) / 2
      · exact ⟨_, bsSearchLoop_outside hs (hmid ▸ hout)⟩
      · obtain ⟨x, hx⟩ : ∃ x, body[(s + body.length) / 2]? = some x :=
          ⟨_, List.getElem?_eq_getElem (not_le.mp hout)⟩
        rw [bsSearchLoop_step hs hmid hx]
        have hxt := hall x (List.mem_of_getElem? hx)
        obtain ⟨hneg, hzero⟩ := hcmp x target
        rw [if_neg (mt hzero.mp (by omega)), if_pos (hneg.mpr hxt)]
        have hsucc := uint32_of_lt (z := (((s + body.length) / 2 : ℕ) + 1 : ℤ)) (by omega)
          (by omega)
        apply ih
        omega

/-- With the number of elements as the upper bound, `bs_search` is right for the targets that
are neither below the first element nor above the last one. -/
theorem bsSearch_count (hcmp : Compares cmp key)
    (hsorted : body.Pairwise fun a b => key a ≤ key b) (hlen : body.length < 2 ^ 31) :
  Finds key body target (bsSearch cmp body 0 body.length target) ↔ Spans key body target
  := by
  constructor
  · intro h
    cases hbody : body with
    | nil =>
        subst hbody
        have hout : bsSearch cmp [] 0 0 target = .error .outOfBounds := by
          apply bsSearchLoop_outside (Nat.le_refl 0)
          apply Nat.zero_le _
        rw [List.length_nil, hout] at h
        apply (not_finds_error h).elim
    | cons first rest =>
        have hfirst : body[0]? = some first := by rw [hbody, List.getElem?_cons_zero]
        have hne : body ≠ [] := by rw [hbody]; exact List.cons_ne_nil _ _
        have hend : body[body.length - 1]? = some (body.getLast hne) := by
          rw [← List.getLast?_eq_getElem?, List.getLast?_eq_some_getLast hne]
        rw [← hbody]
        refine ⟨⟨first, by rw [hbody, List.head?_cons], ?_⟩,
          ⟨_, List.getLast?_eq_some_getLast hne, ?_⟩⟩
        · by_contra hlt
          have hall : ∀ x ∈ body, target < key x := by
            intro x hx
            obtain ⟨i, hi⟩ := List.mem_iff_getElem?.mp hx
            apply (not_le.mp hlt).trans_le (sorted_le hsorted (Nat.zero_le i) hfirst hi)
          obtain ⟨err, herr⟩ := bsSearchLoop_below hcmp hall (body.length + 2)
            (e := body.length) (by omega)
          rw [bsSearch, herr] at h
          apply not_finds_error h
        · by_contra hlt
          have hall : ∀ x ∈ body, key x < target := by
            intro x hx
            obtain ⟨i, hi⟩ := List.mem_iff_getElem?.mp hx
            have hilt := (List.getElem?_eq_some_iff.mp hi).1
            apply (sorted_le hsorted (by omega) hi hend).trans_lt (not_le.mp hlt)
          obtain ⟨err, herr⟩ := bsSearchLoop_above hcmp hlen hall (body.length + 2)
            (Nat.zero_le body.length)
          rw [bsSearch, herr] at h
          apply not_finds_error h
  · rintro ⟨⟨first, hfirst, hle⟩, last, hlast, hge⟩
    rw [List.head?_eq_getElem?] at hfirst
    rw [List.getLast?_eq_getElem?] at hlast
    apply bsSearchLoop_finds hcmp hsorted hlen hfirst hle _ (by omega) (by omega) (Nat.le_refl _)
    · intro _
      use last, hlast, hge
    · intro i x hi
      omega
    · intro i x hi hx
      have := (List.getElem?_eq_some_iff.mp hx).1
      omega

end Search

/-! ### The callers -/

/-- `LPAGESIZE`: the bytes of a piece, which is the size of a summary page. -/
def lpagesize : ℕ := 4096

/-- `MAX_CUR_POINTER`: the number of pairs, of eight bytes each, in a physical page. -/
def maxCurPointer : ℕ := pagesize / 8

/-- `MAX_IDX_SP`. -/
def maxIdxSp : ℕ := maxCurPointer - 1

/-- `summary_pair_cmp`. -/
def summaryPairCmp (p : SummaryPair) (target : ℕ) : ℤ :=
  if p.lba < target then -1 else if target < p.lba then 1 else 0

/-- `sp_find_psa` and `sp_find_offset_by_value`, for the pairs of a summary page. -/
def spFindPsa (body : List SummaryPair) (lba : ℕ) : Except Abort ℕ :=
  bsSearch summaryPairCmp body 0 maxIdxSp lba

/-- `comp_pair_cmp`. -/
def compPairCmp (p target : ℕ) : ℤ := if p < target then -1 else if target < p then 1 else 0

theorem compPairCmp_compares :
  Compares compPairCmp id
  := by
  intro p target
  unfold compPairCmp
  simp only [id]
  split
  · omega
  · split
    · omega
    · omega

/-- `find_offset` without `REAL_COMPRESSION`; `data` are the `max_entry_num` lbas. -/
def findOffsetPlain (data : List ℕ) (lba : ℕ) : Except Abort ℕ :=
  bsSearch compPairCmp data 0 data.length lba

/-- The first turn of a search up to `MAX_IDX_SP` reads behind a summary page. -/
theorem bsSearch_maxIdxSp {α : Type} {cmp : α → ℕ → ℤ} {body : List α}
    (hlen : body.length ≤ lpagesize / 8) (target : ℕ) :
  bsSearch cmp body 0 maxIdxSp target = .error .outOfBounds
  := by
  apply bsSearchLoop_outside (Nat.zero_le _)
  apply hlen.trans
  decide

/-- With the bounds that the callers pass, `bs_search` of a sorted array gives the index of the
target, or `UINT32_MAX` without one, exactly when the upper bound is the number of elements and
the target is neither below the first element nor above the last one. -/
theorem bsSearch_finds_iff {α : Type} {cmp : α → ℕ → ℤ} {key : α → ℕ} (hcmp : Compares cmp key)
    {body : List α} (hsorted : body.Pairwise fun a b => key a ≤ key b) {m : ℕ}
    (hm : m = body.length ∧ body.length < 2 ^ 31
      ∨ m = maxIdxSp ∧ body.length ≤ lpagesize / 8) (target : ℕ) :
  Finds key body target (bsSearch cmp body 0 m target)
    ↔ m = body.length ∧ Spans key body target
  := by
  rcases hm with ⟨rfl, hlen⟩ | ⟨rfl, hlen⟩
  · rw [bsSearch_count hcmp hsorted hlen]
    simp
  · rw [bsSearch_maxIdxSp hlen]
    have hne : maxIdxSp ≠ body.length := by
      have : lpagesize / 8 < maxIdxSp := by decide
      omega
    simp only [not_finds_error, hne, false_and]

theorem bsSearch_finds_iff_twoEntries :
  Finds id [5, 9] 9 (findOffsetPlain [5, 9] 9)
  := (bsSearch_finds_iff compPairCmp_compares (by decide) (.inl ⟨rfl, by decide⟩) 9).mpr
    ⟨rfl, ⟨5, rfl, by decide⟩, 9, rfl, by decide⟩

/-- A summary page with two pairs, whose first lba is looked for; and two lbas, with a target
below and one above them. -/
theorem not_finds_atEdges :
  let page := [⟨5, 0⟩, ⟨9, 1⟩] ++ List.replicate 510 ⟨uint32Max, uint32Max⟩
  ¬ Finds SummaryPair.lba page 5 (spFindPsa page 5) ∧
    ¬ Finds id [5, 9] 3 (findOffsetPlain [5, 9] 3) ∧
    ¬ Finds id [5, 9] 10 (findOffsetPlain [5, 9] 10)
  := by
  intro page
  have hlen : page.length ≤ lpagesize / 8 := by
    rw [List.length_append, List.length_replicate]
    decide
  have hpage : spFindPsa page 5 = .error .outOfBounds := bsSearch_maxIdxSp hlen 5
  have hbelow : findOffsetPlain [5, 9] 3 = .error .outOfBounds := by decide +kernel
  have habove : findOffsetPlain [5, 9] 10 = .error .outOfBounds := by decide +kernel
  rw [hpage, hbelow, habove]
  use not_finds_error, not_finds_error, not_finds_error

end AppL
