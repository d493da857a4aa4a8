import Mathlib.Order.Interval.Finset.Nat
import AppL.LeaFtl.Group

/-!
# The newest segment of an address

Level 0 of a group is sorted and its segments do not overlap.  A segment is freed when its
addresses are among those of the new one, so that the table never points to it; an approximate
segment has a pointer where an accurate one has its stride, and the pointer can be taken for a
stride.
-/

namespace AppL

open Transition

namespace LeaFtl

variable {P : Type}

/-! ### Level 0 -/

/-- The segments of a level are in order and apart from each other. -/
structure Ordered (lev : List (Segment P)) : Prop where
  le : ∀ a ∈ lev, a.start ≤ a.endLba
  apart : lev.Pairwise fun a b => a.endLba < b.start

section Level

variable {lev : List (Segment P)} {seg : Segment P}

theorem Ordered.of_sublist {l : List (Segment P)} (h : Ordered lev) (hl : l.Sublist lev) :
  Ordered l
  := ⟨fun a ha => h.le a (hl.subset ha), h.apart.sublist hl⟩

theorem overlaps_eq_false {a b : Segment P} :
  a.overlaps b = false ↔ b.endLba < a.start ∨ a.endLba < b.start
  := by
  unfold Segment.overlaps
  rw [decide_eq_false_iff_not, not_not]

/-- Before the lower bound segments begin earlier. -/
theorem start_lt_of_lt_lowerBound {j : ℕ} (hj : j < lev.length) (hlt : j < lowerBound lev seg) :
  lev[j].start < seg.start
  := by
  have hnot := List.not_of_lt_findIdx hlt
  simpa using hnot

/-- Before the position of the wrapper segments end before the new one begins. -/
theorem endLba_lt_of_lt_wrapper (h : Ordered lev) {j : ℕ} (hj : j < lev.length)
    (hlt : j < (levelLowerBoundWrapper lev seg).1) :
  lev[j].endLba < seg.start ∨ (levelLowerBoundWrapper lev seg).2 = false
  := by
  have hpair := List.pairwise_iff_getElem.mp h.apart
  have hbefore : ∀ k (hk : k < lev.length), j < k → lev[k].start ≤ seg.start →
      lev[j].endLba < seg.start := by
    intro k hk hjk hle
    have := hpair j k hj hk hjk
    omega
  unfold levelLowerBoundWrapper at hlt ⊢
  split at hlt
  · right
    rfl
  · rename_i back hback
    split at hlt
    · rename_i hnone
      split at hlt
      · rename_i hout
        right
        rw [if_pos hout]
      · rename_i hout
        rw [if_neg hout] at *
        left
        have hle : lev.length ≤ lowerBound lev seg := List.getElem?_eq_none_iff.mp hnone
        dsimp only at hlt
        apply hbefore (lev.length - 1) (by omega) hlt
        apply (start_lt_of_lt_lowerBound (by omega) (by omega)).le
    · rename_i a ha
      obtain ⟨hb, rfl⟩ := List.getElem?_eq_some_iff.mp ha
      split at hlt
      · left
        dsimp only at hlt
        apply hbefore (lowerBound lev seg - 1) (by omega) hlt
        apply (start_lt_of_lt_lowerBound (by omega) (by omega)).le
      · rename_i hcond
        left
        dsimp only at hlt
        apply hbefore _ hb hlt
        by_contra hgt
        apply hcond ⟨by omega, by omega⟩

/-- When the wrapper finds nothing, all segments end before the new one begins. -/
theorem endLba_lt_of_notFound (h : Ordered lev) (hseg : seg.start ≤ seg.endLba)
    (hfound : (levelLowerBoundWrapper lev seg).2 = false) :
  ∀ a ∈ lev, a.endLba < seg.start
  := by
  unfold levelLowerBoundWrapper at hfound
  split at hfound
  · rename_i hnone
    rw [List.getLast?_eq_none_iff.mp hnone]
    simp
  · rename_i back hback
    split at hfound
    · rename_i hnone
      split at hfound
      · rename_i hout
        have hle : lev.length ≤ lowerBound lev seg := List.getElem?_eq_none_iff.mp hnone
        rw [List.getLast?_eq_getElem?] at hback
        obtain ⟨hlast, rfl⟩ := List.getElem?_eq_some_iff.mp hback
        have hstart : lev[lev.length - 1].start < seg.start
          := start_lt_of_lt_lowerBound hlast (by omega)
        intro a ha
        obtain ⟨j, hj, rfl⟩ := List.mem_iff_getElem.mp ha
        rcases Nat.lt_or_ge j (lev.length - 1) with hlt | hge
        · have := List.pairwise_iff_getElem.mp h.apart j (lev.length - 1) hj hlast hlt
          omega
        · obtain rfl : j = lev.length - 1 := by omega
          omega
      · cases hfound
    · split at hfound
      · cases hfound
      · cases hfound

/-- All segments that overlap the new one are found. -/
theorem findOverlap_eq (h : Ordered lev) (hseg : seg.start ≤ seg.endLba) :
  findOverlap lev seg = lev.filter fun a => a.overlaps seg
  := by
  have hbefore := @endLba_lt_of_lt_wrapper P lev seg h
  have hnone := endLba_lt_of_notFound h hseg
  unfold findOverlap
  generalize levelLowerBoundWrapper lev seg = r at *
  obtain ⟨iter, found⟩ := r
  cases found with
  | false =>
      symm
      apply List.filter_eq_nil_iff.mpr
      intro a ha
      rw [overlaps_eq_false.mpr (.inr (hnone rfl a ha))]
      apply Bool.false_ne_true
  | true =>
      have htake : (lev.take iter).filter (fun a => a.overlaps seg) = [] := by
        apply List.filter_eq_nil_iff.mpr
        intro a ha
        obtain ⟨j, hj, rfl⟩ := List.mem_iff_getElem.mp ha
        rw [List.length_take] at hj
        rw [List.getElem_take]
        have hlt := (hbefore (j := j) (by omega) (by dsimp only; omega)).resolve_right (by simp)
        rw [overlaps_eq_false.mpr (.inr hlt)]
        apply Bool.false_ne_true
      have hsplit := List.take_append_drop iter lev
      dsimp only
      rw [if_pos rfl]
      conv_rhs => rw [← hsplit]
      rw [List.filter_append, htake, List.nil_append]

/-- The lower bound of a segment of the level is its position. -/
theorem lowerBound_eq {l₁ l₂ : List (Segment P)} (h : Ordered (l₁ ++ seg :: l₂)) :
  lowerBound (l₁ ++ seg :: l₂) seg = l₁.length
  := by
  have hpair := (List.pairwise_append.mp h.apart).2.2
  unfold lowerBound
  rw [List.findIdx_append]
  have hnot : l₁.findIdx (fun a => ¬ a.start < seg.start) = l₁.length := by
    apply List.findIdx_eq_length.mpr
    intro a ha
    have hlt := hpair a ha seg List.mem_cons_self
    have hle := h.le a (List.mem_append_left _ ha)
    simp only [decide_eq_false_iff_not, not_not]
    omega
  rw [hnot, if_neg (lt_irrefl _), List.findIdx_cons]
  simp

/-- A segment of the level is taken out. -/
theorem eraseSeg_eq (h : Ordered lev) (hmem : seg ∈ lev) :
  eraseSeg lev seg = .ok (lev.filter fun a => a.start ≠ seg.start)
  := by
  obtain ⟨l₁, l₂, rfl⟩ := List.append_of_mem hmem
  have hbound := lowerBound_eq h
  have hget : (l₁ ++ seg :: l₂)[l₁.length]? = some seg := by
    rw [List.getElem?_append_right le_rfl, Nat.sub_self]
    rfl
  obtain ⟨hpair₁, hpair₂, hcross⟩ := List.pairwise_append.mp h.apart
  have hiter : (levelLowerBoundWrapper (l₁ ++ seg :: l₂) seg).1 = l₁.length := by
    unfold levelLowerBoundWrapper
    rw [hbound, hget]
    split
    · rename_i hnone
      simp at hnone
    · simp
  have hkeep₁ : l₁.filter (fun a => decide (a.start ≠ seg.start)) = l₁ := by
    apply List.filter_eq_self.mpr
    intro a ha
    have hlt := hcross a ha seg List.mem_cons_self
    have hle := h.le a (List.mem_append_left _ ha)
    rw [decide_eq_true_eq]
    omega
  have hkeep₂ : l₂.filter (fun a => decide (a.start ≠ seg.start)) = l₂ := by
    apply List.filter_eq_self.mpr
    intro a ha
    have hlt := (List.pairwise_cons.mp hpair₂).1 a ha
    have hle := h.le seg hmem
    rw [decide_eq_true_eq]
    omega
  unfold eraseSeg
  rw [hiter]
  refine bind_eq_ok.mpr ⟨seg, orThrow_eq_ok.mpr hget, ?_⟩
  refine bind_eq_ok.mpr ⟨(), require_eq_ok.mpr rfl, ?_⟩
  rw [List.eraseIdx_append_of_length_le le_rfl, Nat.sub_self, List.filter_append,
    List.filter_cons_of_neg (by simp), hkeep₁, hkeep₂]
  rfl

/-- The new segment is put between those that end before it and those that begin after it. -/
theorem insertSeg_eq {l₁ l₂ : List (Segment P)} (h : Ordered (l₁ ++ l₂))
    (hseg : seg.start ≤ seg.endLba) (h₁ : ∀ a ∈ l₁, a.endLba < seg.start)
    (h₂ : ∀ a ∈ l₂, seg.endLba < a.start) :
  insertSeg (l₁ ++ l₂) seg = .ok (l₁ ++ seg :: l₂)
  := by
  have hbound : lowerBound (l₁ ++ l₂) seg = l₁.length := by
    unfold lowerBound
    rw [List.findIdx_append]
    have hnot : l₁.findIdx (fun a => ¬ a.start < seg.start) = l₁.length := by
      apply List.findIdx_eq_length.mpr
      intro a ha
      have hlt := h₁ a ha
      have hle := h.le a (List.mem_append_left _ ha)
      simp only [decide_eq_false_iff_not, not_not]
      omega
    rw [hnot, if_neg (lt_irrefl _)]
    cases l₂ with
    | nil => simp
    | cons b l₂ =>
        have hlt := h₂ b List.mem_cons_self
        rw [List.findIdx_cons, decide_eq_true (by omega)]
        simp
  have hinsert : (l₁ ++ l₂).insertIdx l₁.length seg = l₁ ++ seg :: l₂ := by
    clear h h₁ hbound
    induction l₁ with
    | nil => rfl
    | cons a l₁ ih => rw [List.cons_append, List.length_cons, List.insertIdx_succ_cons, ih]; rfl
  cases l₂ with
  | nil =>
      rw [List.append_nil] at *
      have hwrap : levelLowerBoundWrapper l₁ seg = (l₁.length, false) := by
        unfold levelLowerBoundWrapper
        rw [hbound, List.getElem?_eq_none le_rfl]
        split
        · rfl
        · rename_i back hback
          apply if_pos (.inr (h₁ back (List.mem_of_getLast? hback)))
      unfold insertSeg
      rw [hwrap, ← hinsert]
      rfl
  | cons b l₂ =>
      have hlt := h₂ b List.mem_cons_self
      have hget : (l₁ ++ b :: l₂)[l₁.length]? = some b := by
        rw [List.getElem?_append_right le_rfl, Nat.sub_self]
        rfl
      have hwrap : levelLowerBoundWrapper (l₁ ++ b :: l₂) seg = (l₁.length - 1, true) := by
        unfold levelLowerBoundWrapper
        rw [hbound, hget]
        split
        · rename_i hnone
          simp at hnone
        · dsimp only
          split
          · rfl
          · rename_i hcond
            have hzero : l₁.length = 0 := by
              by_contra hne
              apply hcond ⟨by omega, hne⟩
            rw [hzero]
      unfold insertSeg
      rw [hwrap]
      dsimp only
      rw [if_pos rfl]
      rcases List.eq_nil_or_concat l₁ with rfl | ⟨l, a, rfl⟩
      · refine bind_eq_ok.mpr ⟨b, rfl, ?_⟩
        rw [if_neg (by omega)]
        rfl
      · rw [List.concat_eq_append] at *
        have hlast : (l ++ [a] ++ b :: l₂)[(l ++ [a]).length - 1]? = some a := by
          rw [List.append_assoc, List.length_append, List.length_singleton, Nat.add_sub_cancel,
            List.getElem?_append_right le_rfl, Nat.sub_self]
          rfl
        have hmem : a ∈ l ++ [a] := List.mem_append_right _ (List.mem_singleton_self a)
        have ha := h₁ a hmem
        have hle := h.le a (List.mem_append_left _ hmem)
        refine bind_eq_ok.mpr ⟨a, orThrow_eq_ok.mpr hlast, ?_⟩
        rw [if_pos (by omega), Nat.sub_add_cancel (by simp), hinsert]
        rfl

theorem segmentAccInclude_eq (h : seg.type = .accurate) (lba : ℕ) :
  segmentAccInclude seg lba = .ok (decide (seg.start ≤ lba ∧ lba ≤ seg.endLba
    ∧ (seg.body.asInterval ≠ 0 → (lba - seg.start) % seg.body.asInterval = 0)))
  := by
  refine bind_eq_ok.mpr ⟨(), require_eq_ok.mpr h, ?_⟩
  split
  · rename_i hout
    rw [decide_eq_false (by omega)]
    rfl
  · split
    · rename_i hmod
      rw [decide_eq_false (fun hall => hmod.2 (hall.2.2 hmod.1))]
      rfl
    · rename_i hin hmod
      rw [decide_eq_true ⟨by omega, by omega, fun hne => not_not.mp fun hmod' => hmod ⟨hne, hmod'⟩⟩]
      rfl

theorem segmentRemovable_eq {old : Segment P} (h : seg.type = .accurate) :
  segmentRemovable old seg
    = if old.start ≥ seg.start ∧ old.endLba ≤ seg.endLba then
        if old.body.asInterval = 0 then
          segmentAccInclude seg old.start
        else if old.body.asInterval = seg.body.asInterval
            ∧ (old.start - seg.start) % seg.body.asInterval = 0 then
          .ok true
        else
          .ok false
      else
        .ok false
  := by
  unfold segmentRemovable
  rw [require, if_pos h]
  rfl

theorem segmentRemovable_ok {old : Segment P} (h : seg.type = .accurate) :
  ∃ b, segmentRemovable old seg = .ok b
  := by
  rw [segmentRemovable_eq h]
  split
  · split
    · exact ⟨_, segmentAccInclude_eq h _⟩
    · split
      · exact ⟨_, rfl⟩
      · exact ⟨_, rfl⟩
  · exact ⟨_, rfl⟩

/-- The loop over the overlapped segments: they leave the level, and go down or are freed. -/
theorem removeOverlapped_eq {overlapped : List (Segment P)} :
  ∀ {lev : List (Segment P)}, Ordered lev → overlapped.Sublist lev →
    ∃ godown freed, removeOverlapped seg lev overlapped
        = .ok (lev.filter (fun a => a.start ∉ overlapped.map (·.start)), godown, freed)
      ∧ (∀ k ∈ freed, ∃ a ∈ overlapped, a.seq = k ∧ seg.type = .accurate
        ∧ segmentRemovable a seg = .ok true)
      ∧ (∀ a ∈ overlapped, a ∈ godown ∨ a.seq ∈ freed) ∧ ∀ a ∈ godown, a ∈ overlapped
  := by
  induction overlapped with
  | nil =>
      intro lev _ _
      use [], [], by simp [removeOverlapped]; rfl, by simp, by simp, by simp
  | cons a overlapped ih =>
      intro lev h hsub
      have hmem : a ∈ lev := hsub.subset List.mem_cons_self
      have herase := eraseSeg_eq h hmem
      have hsub' : overlapped.Sublist (lev.filter fun b => b.start ≠ a.start) := by
        have hself : overlapped.filter (fun b => b.start ≠ a.start) = overlapped := by
          apply List.filter_eq_self.mpr
          intro b hb
          have hlt := (List.pairwise_cons.mp (h.apart.sublist hsub)).1 b hb
          have hle := h.le a hmem
          rw [decide_eq_true_eq]
          omega
        rw [← hself]
        exact ((List.sublist_cons_self a overlapped).trans hsub).filter _
      obtain ⟨godown, freed, heq, hfreed, hall, hdown⟩ := ih (h.of_sublist List.filter_sublist) hsub'
      have hfilter : (lev.filter fun b => b.start ≠ a.start).filter
          (fun b => b.start ∉ overlapped.map (·.start))
          = lev.filter fun b => b.start ∉ (a :: overlapped).map (·.start) := by
        rw [List.filter_filter]
        apply List.filter_congr
        intro b _
        simp only [List.map_cons, List.mem_cons, not_or]
        rw [Bool.decide_and, Bool.and_comm]
      rw [hfilter] at heq
      have hcheck : ∃ b, removeCheck seg a = .ok b
          ∧ (b = true → seg.type = .accurate ∧ segmentRemovable a seg = .ok true) := by
        unfold removeCheck
        split
        · rename_i hacc
          obtain ⟨b, hb⟩ : ∃ b, segmentRemovable a seg = .ok b := segmentRemovable_ok hacc
          use b, hb
          rintro rfl
          use hacc, hb
        · use false, rfl, by simp
      obtain ⟨b, hb, hb'⟩ := hcheck
      cases b with
      | true =>
          refine ⟨godown, a.seq :: freed, ?_, ?_, ?_, fun c hc => List.mem_cons_of_mem a (hdown c hc)⟩
          · refine bind_eq_ok.mpr ⟨true, hb, ?_⟩
            refine bind_eq_ok.mpr ⟨_, herase, ?_⟩
            exact bind_eq_ok.mpr ⟨_, heq, rfl⟩
          · intro k hk
            obtain rfl | hk := List.mem_cons.mp hk
            · exact ⟨a, List.mem_cons_self, rfl, hb' rfl⟩
            · obtain ⟨c, hc, hrest⟩ := hfreed k hk
              exact ⟨c, List.mem_cons_of_mem a hc, hrest⟩
          · intro c hc
            obtain rfl | hc := List.mem_cons.mp hc
            · right
              apply List.mem_cons_self
            · apply (hall c hc).imp id (List.mem_cons_of_mem _)
      | false =>
          refine ⟨a :: godown, freed, ?_, ?_, ?_, ?_⟩
          · refine bind_eq_ok.mpr ⟨false, hb, ?_⟩
            refine bind_eq_ok.mpr ⟨_, herase, ?_⟩
            exact bind_eq_ok.mpr ⟨_, heq, rfl⟩
          · intro k hk
            obtain ⟨c, hc, hrest⟩ := hfreed k hk
            exact ⟨c, List.mem_cons_of_mem a hc, hrest⟩
          · intro c hc
            obtain rfl | hc := List.mem_cons.mp hc
            · left
              apply List.mem_cons_self
            · apply (hall c hc).imp (List.mem_cons_of_mem _) id
          · intro c hc
            obtain rfl | hc := List.mem_cons.mp hc
            · apply List.mem_cons_self
            · apply List.mem_cons_of_mem a (hdown c hc)

/-- Segments that do not overlap the new one are before it or after it. -/
theorem Ordered.split (h : Ordered lev)
    (hout : ∀ a ∈ lev, seg.endLba < a.start ∨ a.endLba < seg.start) :
  ∃ l₁ l₂, lev = l₁ ++ l₂ ∧ (∀ a ∈ l₁, a.endLba < seg.start) ∧ ∀ a ∈ l₂, seg.endLba < a.start
  := by
  induction lev with
  | nil => use [], [], rfl, by simp, by simp
  | cons a lev ih =>
      rcases hout a List.mem_cons_self with hafter | hbefore
      · refine ⟨[], a :: lev, rfl, by simp, ?_⟩
        intro b hb
        obtain rfl | hb := List.mem_cons.mp hb
        · apply hafter
        · have hlt := (List.pairwise_cons.mp h.apart).1 b hb
          have hle := h.le a List.mem_cons_self
          omega
      · obtain ⟨l₁, l₂, rfl, h₁, h₂⟩ := ih (h.of_sublist (List.sublist_cons_self a lev))
          (fun b hb => hout b (List.mem_cons_of_mem a hb))
        refine ⟨a :: l₁, l₂, rfl, ?_, h₂⟩
        intro b hb
        obtain rfl | hb := List.mem_cons.mp hb
        · apply hbefore
        · apply h₁ b hb

/-- What is left of the level after the overlapped segments are gone does not overlap. -/
theorem filter_notMem_overlapped (h : Ordered lev) :
  lev.filter (fun a => a.start ∉ (lev.filter fun b => b.overlaps seg).map (·.start))
    = lev.filter fun a => !a.overlaps seg
  := by
  apply List.filter_congr
  intro a ha
  have hinj : ∀ b ∈ lev, b.start = a.start → b.overlaps seg = a.overlaps seg := by
    intro b hb heq
    obtain ⟨i, hi, rfl⟩ := List.mem_iff_getElem.mp ha
    obtain ⟨j, hj, rfl⟩ := List.mem_iff_getElem.mp hb
    have hpair := List.pairwise_iff_getElem.mp h.apart
    have hle := h.le _ ha
    have hle' := h.le _ hb
    rcases lt_trichotomy i j with hij | rfl | hij
    · have := hpair i j hi hj hij
      omega
    · rfl
    · have := hpair j i hj hi hij
      omega
  cases hover : a.overlaps seg with
  | true =>
      simp only [List.mem_map, List.mem_filter, Bool.not_true, decide_eq_false_iff_not, not_not]
      exact ⟨a, ⟨ha, hover⟩, rfl⟩
  | false =>
      simp only [List.mem_map, List.mem_filter, Bool.not_false, decide_eq_true_eq]
      rintro ⟨b, ⟨hb, hb'⟩, heq⟩
      rw [hinj b hb heq, hover] at hb'
      cases hb'

end Level

/-! ### Insertions -/

/-- The arguments of a call of `group_insert`, with the address of the `PLR`. -/
structure Insert where
  tmap : TempMap
  type : SegmentType
  interval : ℕ
  ptr : ℕ
  deriving DecidableEq, Repr

/-- What the callers of `group_insert` ensure. -/
structure Insert.Valid (mapIdx : ℕ) (i : Insert) : Prop where
  ne : i.tmap.lba ≠ []
  sorted : i.tmap.lba.Pairwise (· < ·)
  pieces : i.tmap.piecePpa.length = i.tmap.lba.length
  group : ∀ l ∈ i.tmap.lba, l / mapInTrans = mapIdx
  stride : i.type = .accurate → i.tmap.lba.IsChain fun a b => b = a + i.interval

/-- The pairs of addresses and pages that the `PLR` of a segment is made of. -/
def TempMap.points (map : TempMap) (start : ℕ) : List (ℕ × ℕ) :=
  (map.lba.zip map.piecePpa).map fun q => (q.1 - start, q.2 / l2pgap)

/-- A segment of an insertion. -/
structure Made (pr : Predictor P) (i : Insert) (a : Segment P) : Prop where
  start : i.tmap.lba.head? = some a.start
  endLba : i.tmap.lba.getLast? = some a.endLba
  originalStart : a.originalStart = a.start
  piece : i.tmap.piecePpa.head? = some a.startPiecePpa
  accurate : i.type = .accurate → a.body = .interval i.interval
  approximate : i.type = .approximate → a.body = .plr i.ptr (pr.make (i.tmap.points a.start))

/-- The same segment, perhaps in another level. -/
def Same (a b : Segment P) : Prop := a = { b with levelPtr := a.levelPtr }

section Made

variable {pr : Predictor P} {i j : Insert} {a b : Segment P} {mapIdx : ℕ}

theorem Same.seq (h : Same a b) :
  a.seq = b.seq
  := by
  rw [h]

/-- The level of a segment does not matter. -/
theorem Made.of_same (hb : Made pr i b) (h : Same a b) :
  Made pr i a
  := by
  rw [h]
  use hb.start, hb.endLba, hb.originalStart, hb.piece, hb.accurate, hb.approximate

/-- The addresses of a list with a constant stride. -/
theorem mem_stride {n : ℕ} {l : List ℕ} :
  ∀ {a e : ℕ}, l.head? = some a → l.getLast? = some e → l.Pairwise (· < ·) →
    l.IsChain (fun a b => b = a + n) →
    ∀ x, x ∈ l ↔ a ≤ x ∧ x ≤ e ∧ (n ≠ 0 → (x - a) % n = 0)
  := by
  induction l with
  | nil =>
      intro a e h
      cases h
  | cons b l ih =>
      intro a e ha he hsorted hchain x
      obtain rfl : b = a := Option.some.inj ha
      cases l with
      | nil =>
          obtain rfl : b = e := Option.some.inj he
          rw [List.mem_singleton]
          constructor
          · rintro rfl
            use le_rfl, le_rfl, fun _ => by rw [Nat.sub_self, Nat.zero_mod]
          · rintro ⟨h₁, h₂, -⟩
            omega
      | cons c l =>
          obtain ⟨hbc, hchain⟩ := List.isChain_cons_cons.mp hchain
          obtain ⟨hlt, hsorted⟩ := List.pairwise_cons.mp hsorted
          have hc := hlt c List.mem_cons_self
          have hn : 0 < n := by omega
          rw [List.getLast?_cons_cons] at he
          have hbe : b < e := hlt e (List.mem_of_getLast? he)
          have hx := ih rfl he hsorted hchain x
          rw [List.mem_cons, hx]
          constructor
          · rintro (rfl | ⟨h₁, h₂, h₃⟩)
            · use le_rfl, hbe.le, fun _ => by rw [Nat.sub_self, Nat.zero_mod]
            · refine ⟨by omega, h₂, fun hne => ?_⟩
              have hsub : x - b = x - c + n := by omega
              rw [hsub, Nat.add_mod_right]
              apply h₃ hne
          · rintro ⟨h₁, h₂, h₃⟩
            rcases Nat.eq_or_lt_of_le h₁ with heq | hgt
            · left
              apply heq.symm
            · have hge : n ≤ x - b := Nat.le_of_dvd (by omega) (Nat.dvd_of_mod_eq_zero (h₃ hn.ne'))
              refine .inr ⟨by omega, h₂, fun hne => ?_⟩
              have hsub : x - c = x - b - n := by omega
              rw [hsub, ← Nat.mod_eq_sub_mod hge]
              apply h₃ hne

theorem Made.type (h : Made pr i a) :
  a.type = i.type
  := by
  unfold Segment.type
  cases htype : i.type with
  | accurate => rw [h.accurate htype]
  | approximate => rw [h.approximate htype]

theorem Made.le (h : Made pr i a) (hi : i.Valid mapIdx) :
  a.start ≤ a.endLba
  := by
  obtain ⟨l, hl⟩ := List.head?_eq_some_iff.mp h.start
  have hmem := List.mem_of_getLast? h.endLba
  have hsorted := hi.sorted
  rw [hl] at hmem hsorted
  obtain heq | hmem := List.mem_cons.mp hmem
  · apply heq.ge
  · exact ((List.pairwise_cons.mp hsorted).1 _ hmem).le

/-- The addresses of an accurate segment. -/
theorem Made.mem_iff (h : Made pr i a) (hi : i.Valid mapIdx) (hacc : i.type = .accurate) (lba : ℕ) :
  lba ∈ i.tmap.lba ↔ a.start ≤ lba ∧ lba ≤ a.endLba
    ∧ (a.body.asInterval ≠ 0 → (lba - a.start) % a.body.asInterval = 0)
  := by
  rw [h.accurate hacc]
  apply mem_stride h.start h.endLba hi.sorted (hi.stride hacc) lba

/-- The pointer of an approximate segment inside the new one is taken for a stride. -/
def mistaken (i : Insert) (a : Segment P) : Bool :=
  match a.body with
  | .interval _ => false
  | .plr ptr _ =>
      i.type = .accurate ∧ (∀ l ∈ i.tmap.lba.head?, l ≤ a.start)
        ∧ (∀ l ∈ i.tmap.lba.getLast?, a.endLba ≤ l)
        ∧ (ptr % 2 ^ 32 = 0 ∨ ptr % 2 ^ 32 = i.interval)

/-- A segment that is freed has no address that the new one does not have. -/
theorem lba_mem_of_removable (ha : Made pr i a) (hi : i.Valid mapIdx) (hb : Made pr j b)
    (hj : j.Valid mapIdx) (hacc : j.type = .accurate) (hmistaken : mistaken j a = false)
    (hremovable : segmentRemovable a b = .ok true) :
  ∀ l ∈ i.tmap.lba, l ∈ j.tmap.lba
  := by
  have hb' : b.type = .accurate := hb.type.trans hacc
  rw [segmentRemovable_eq hb'] at hremovable
  split at hremovable
  · rename_i hinside
    cases htype : i.type with
    | accurate =>
        intro l hl
        rw [ha.mem_iff hi htype] at hl
        rw [hb.mem_iff hj hacc]
        split at hremovable
        · rename_i hzero
          rw [segmentAccInclude_eq hb'] at hremovable
          have hstart := of_decide_eq_true (Except.ok.inj hremovable)
          have hsame : l = a.start := by
            have hmem := (ha.mem_iff hi htype l).mpr hl
            have hchain := hi.stride htype
            have hinterval : i.interval = 0 := by
              rw [ha.accurate htype] at hzero
              apply hzero
            have hsorted := hi.sorted
            obtain ⟨t, ht⟩ := List.head?_eq_some_iff.mp ha.start
            rw [ht, hinterval] at hchain
            rw [ht] at hmem hsorted
            cases t with
            | nil => apply List.mem_singleton.mp hmem
            | cons c t =>
                have hc := (List.isChain_cons_cons.mp hchain).1
                have hlt := (List.pairwise_cons.mp hsorted).1 c List.mem_cons_self
                omega
          rw [hsame]
          apply hstart
        · rename_i hne
          split at hremovable
          · rename_i hstride
            obtain ⟨h₁, h₂, h₃⟩ := hl
            refine ⟨by omega, by omega, fun _ => ?_⟩
            have hsum : l - b.start = (l - a.start) + (a.start - b.start) := by omega
            rw [hsum, Nat.add_mod, hstride.2, ← hstride.1, h₃ hne]
            rfl
          · cases hremovable
    | approximate =>
        have hp := ha.approximate htype
        have hnot : ¬ (i.ptr % 2 ^ 32 = 0 ∨ i.ptr % 2 ^ 32 = j.interval) := by
          intro hor
          unfold mistaken at hmistaken
          rw [hp] at hmistaken
          apply of_decide_eq_false hmistaken
          refine ⟨hacc, ?_, ?_, hor⟩
          · intro l hl
            rw [hb.start] at hl
            cases hl
            apply hinside.1
          · intro l hl
            rw [hb.endLba] at hl
            cases hl
            apply hinside.2
        have hptr : a.body.asInterval = i.ptr % 2 ^ 32 := by
          rw [hp]
          rfl
        have hinterval : b.body.asInterval = j.interval := by
          rw [hb.accurate hacc]
          rfl
        rw [← hptr, ← hinterval] at hnot
        rw [if_neg fun h => hnot (.inl h), if_neg fun h => hnot (.inr h.1)] at hremovable
        cases hremovable
  · cases hremovable

end Made

/-! ### One insertion -/

section Step

variable (pr : Predictor P)

/-- The segments of level 0. -/
def Group.level0 (gp : Group P) : List (Segment P) :=
  match gp.levelList with
  | some (lev :: _) => lev.segs
  | _ => []

theorem segmentMake_made {i : Insert} {mapIdx : ℕ} (hi : i.Valid mapIdx) (seq : ℕ) :
  ∃ a, segmentMake pr i.tmap i.type i.interval i.ptr seq = .ok a ∧ Made pr i a ∧ a.seq = seq
  := by
  obtain ⟨start, hstart⟩ : ∃ start, i.tmap.lba.head? = some start := by
    cases h : i.tmap.lba with
    | nil => exact absurd h hi.ne
    | cons start l => exact ⟨start, rfl⟩
  obtain ⟨endLba, hend⟩ : ∃ endLba, i.tmap.lba.getLast? = some endLba
    := ⟨_, List.getLast?_eq_some_getLast hi.ne⟩
  obtain ⟨ppa, hppa⟩ : ∃ ppa, i.tmap.piecePpa.head? = some ppa := by
    cases h : i.tmap.piecePpa with
    | nil =>
        have hlen := hi.pieces
        rw [h] at hlen
        exact absurd (List.length_eq_zero_iff.mp hlen.symm) hi.ne
    | cons ppa l => exact ⟨ppa, rfl⟩
  refine ⟨_, bind_eq_ok.mpr ⟨start, orThrow_eq_ok.mpr hstart, bind_eq_ok.mpr ⟨endLba,
    orThrow_eq_ok.mpr hend, bind_eq_ok.mpr ⟨ppa, orThrow_eq_ok.mpr hppa, rfl⟩⟩⟩, ?_, rfl⟩
  refine ⟨hstart, hend, rfl, hppa, ?_, ?_⟩
  · intro htype
    dsimp only
    rw [htype]
  · intro htype
    dsimp only
    rw [htype]
    rfl

/-- What an insertion does to level 0. -/
structure Replaced (new : Segment P) (lev lev' godown : List (Segment P)) (freed : List ℕ) :
    Prop where
  ordered : Ordered lev'
  mem : ∀ a ∈ lev', a ∈ lev ∨ Same a new
  down : ∀ a ∈ godown, a ∈ lev
  inserted : ∃ a ∈ lev', a.seq = new.seq
  removable : ∀ k ∈ freed, ∃ a ∈ lev, a.seq = k ∧ new.type = .accurate
    ∧ segmentRemovable a new = .ok true
  kept : ∀ a ∈ lev, a ∈ lev' ∨ a ∈ godown ∨ a.seq ∈ freed

/-- The overlapped segments leave level 0 and the new one is put into it. -/
theorem level_replaced {lev : List (Segment P)} {new : Segment P} (ptr : ℕ) (h : Ordered lev)
    (hnew : new.start ≤ new.endLba) :
  ∃ segs lev' godown freed, removeOverlapped new lev (findOverlap lev new) = .ok (segs, godown, freed)
    ∧ insertSeg segs { new with levelPtr := some ptr } = .ok lev'
    ∧ Replaced new lev lev' godown freed
  := by
  rw [findOverlap_eq h hnew]
  obtain ⟨godown, freed, hremove, hfreed, hall, hdown⟩ := removeOverlapped_eq (P := P) h
    (List.filter_sublist (l := lev) (p := fun a => a.overlaps new))
  rw [filter_notMem_overlapped h] at hremove
  have hrest := h.of_sublist (List.filter_sublist (l := lev) (p := fun a => !a.overlaps new))
  have hout : ∀ a ∈ lev.filter fun a => !a.overlaps new, new.endLba < a.start ∨ a.endLba < new.start
    := by
    intro a ha
    apply overlaps_eq_false.mp
    simpa using (List.mem_filter.mp ha).2
  obtain ⟨l₁, l₂, hsegs, h₁, h₂⟩ := hrest.split hout
  rw [hsegs] at hremove hrest
  have hinsert : insertSeg (l₁ ++ l₂) { new with levelPtr := some ptr }
      = .ok (l₁ ++ { new with levelPtr := some ptr } :: l₂) := insertSeg_eq hrest hnew h₁ h₂
  refine ⟨l₁ ++ l₂, _, godown, freed, hremove, hinsert, ?_⟩
  have hmem : ∀ a, a ∈ l₁ ++ l₂ ↔ a ∈ lev ∧ a.overlaps new = false := by
    intro a
    rw [← hsegs, List.mem_filter]
    simp
  constructor
  · constructor
    · intro a ha
      obtain ha | ha := List.mem_append.mp ha
      · apply hrest.le a (List.mem_append_left _ ha)
      · obtain rfl | ha := List.mem_cons.mp ha
        · apply hnew
        · apply hrest.le a (List.mem_append_right _ ha)
    · obtain ⟨hp₁, hp₂, hcross⟩ := List.pairwise_append.mp hrest.apart
      apply List.pairwise_append.mpr
      use hp₁, List.pairwise_cons.mpr ⟨h₂, hp₂⟩
      intro a ha b hb
      obtain rfl | hb := List.mem_cons.mp hb
      · apply h₁ a ha
      · apply hcross a ha b hb
  · intro a ha
    obtain ha | ha := List.mem_append.mp ha
    · left
      exact ((hmem a).mp (List.mem_append_left _ ha)).1
    · obtain rfl | ha := List.mem_cons.mp ha
      · right
        rfl
      · left
        exact ((hmem a).mp (List.mem_append_right _ ha)).1
  · intro a ha
    apply (List.mem_filter.mp (hdown a ha)).1
  · exact ⟨_, List.mem_append_right _ List.mem_cons_self, rfl⟩
  · intro k hk
    obtain ⟨a, ha, hrest'⟩ := hfreed k hk
    exact ⟨a, (List.mem_filter.mp ha).1, hrest'⟩
  · intro a ha
    cases hover : a.overlaps new with
    | true => exact .inr (hall a (List.mem_filter.mpr ⟨ha, hover⟩))
    | false =>
        left
        apply List.mem_append.mpr
        apply (List.mem_append.mp ((hmem a).mpr ⟨ha, hover⟩)).imp id
        apply List.mem_cons_of_mem _

/-- The addresses of a group. -/
theorem card_le_of_group {crb : Finset ℕ} {mapIdx : ℕ} (h : ∀ l ∈ crb, l / mapInTrans = mapIdx) :
  crb.card ≤ pagesize / 4
  := by
  have hsub : crb ⊆ Finset.Ico (mapIdx * mapInTrans) (mapIdx * mapInTrans + mapInTrans) := by
    intro l hl
    have hdiv := h l hl
    have hpos : 0 < mapInTrans := by decide
    rw [Finset.mem_Ico]
    rw [Nat.div_eq_iff hpos] at hdiv
    omega
  calc crb.card ≤ _ := Finset.card_le_card hsub
    _ = mapInTrans := by rw [Nat.card_Ico, Nat.add_sub_cancel_left]

/-- What an insertion does. -/
structure Inserted (i : Insert) (s : Globals) (gp : Group P) (s' : Globals) (gp' : Group P) :
    Prop where
  cnt : s'.cnt = s.cnt + 1
  fastSearch : s'.fastSearch = s.fastSearch
  cacheFlag : gp'.cacheFlag = gp.cacheFlag
  mapIdx : gp'.mapIdx = gp.mapIdx
  segList : s.fastSearch = true → ∀ l,
    s'.segList l = if l ∈ i.tmap.lba then some s.cnt else s.segList l
  crb : ∀ l ∈ s'.masterCrb gp.mapIdx, l ∈ s.masterCrb gp.mapIdx ∨ l ∈ i.tmap.lba
  others : ∀ g, g ≠ gp.mapIdx → s'.masterCrb g = s.masterCrb g
  levels : ∃ new godown freed, Made pr i new ∧ new.seq = s.cnt
    ∧ s'.freed = s.freed ++ freed.map (fun seq => (seq, s.cnt))
    ∧ Replaced new gp.level0 gp'.level0 godown freed
    ∧ (∀ k, k ∈ gp.live ∨ k = s.cnt → k ∈ gp'.live ∨ k ∈ freed)
    ∧ ∀ a ∈ gp'.segs, (∃ b ∈ gp.segs, Same a b) ∨ Same a new

/-- The levels after the new segment is inserted. -/
def newLevels (ptr : ℕ) (lev : Level P) (rest : List (Level P)) (godown : List (Segment P)) :
    List (Level P) :=
  if godown = [] then
    lev :: rest
  else
    lev :: ⟨ptr, godown.map fun seg => { seg with levelPtr := some ptr }⟩ :: rest

/-- The part of an insertion that changes the levels. -/
theorem insertTarget_ok {s : Globals} {gp : Group P} {lev : Level P} {rest : List (Level P)}
    {tmap : TempMap} {new : Segment P} {segs lev' godown : List (Segment P)} {freed : List ℕ}
    (hcached : gp.cacheFlag = .cached) (hcrb : (s.masterCrb gp.mapIdx).card ≤ pagesize / 4)
    (hcrb' : ((s.crbUpdate tmap gp.mapIdx new.type).masterCrb gp.mapIdx).card ≤ pagesize / 4)
    (hremove : removeOverlapped new lev.segs (findOverlap lev.segs new) = .ok (segs, godown, freed))
    (hinsert : insertSeg segs { new with levelPtr := some lev.ptr } = .ok lev') :
  ∃ s' gp', s.insertTarget pr gp lev rest tmap new = .ok (s', gp')
    ∧ s'.cnt = s.cnt ∧ s'.fastSearch = s.fastSearch ∧ s'.segList = s.segList
    ∧ s'.masterCrb = (s.crbUpdate tmap gp.mapIdx new.type).masterCrb
    ∧ s'.freed = s.freed ++ freed.map (fun seq => (seq, new.seq))
    ∧ gp'.cacheFlag = gp.cacheFlag ∧ gp'.mapIdx = gp.mapIdx
    ∧ ∃ ptr, gp'.levelList = some (newLevels ptr ⟨lev.ptr, lev'⟩ rest godown)
  := by
  obtain ⟨s₁, hs₁⟩ : ∃ s₁ : Globals, s₁ = { s with
      lruNowByte := s.lruNowByte - (groupLevelSize pr lev + (s.masterCrb gp.mapIdx).card * 4 : ℕ)
      nowSegmentNum := s.nowSegmentNum - lev.segs.length } := ⟨_, rfl⟩
  have hcrb₁ : (s₁.crbUpdate tmap gp.mapIdx new.type).masterCrb
      = (s.crbUpdate tmap gp.mapIdx new.type).masterCrb := by
    rw [hs₁]
    cases new.type with
    | accurate => rfl
    | approximate => rfl
  obtain ⟨hcnt, hfast, hlist, hfreed⟩ : (s₁.crbUpdate tmap gp.mapIdx new.type).cnt = s.cnt
      ∧ (s₁.crbUpdate tmap gp.mapIdx new.type).fastSearch = s.fastSearch
      ∧ (s₁.crbUpdate tmap gp.mapIdx new.type).segList = s.segList
      ∧ (s₁.crbUpdate tmap gp.mapIdx new.type).freed = s.freed := by
    rw [hs₁]
    cases new.type with
    | accurate => exact ⟨rfl, rfl, rfl, rfl⟩
    | approximate => exact ⟨rfl, rfl, rfl, rfl⟩
  generalize hs₂ : s₁.crbUpdate tmap gp.mapIdx new.type = s₂ at *
  rw [← hcrb₁] at hcrb' ⊢
  have hupdate : ∀ gp' : Group P, gp'.mapIdx = gp.mapIdx →
      s₁.groupSegmentUpdate gp' lev tmap new
        = .ok ({ s₂ with freed := s₂.freed ++ freed.map fun seq => (seq, new.seq) },
          ⟨lev.ptr, lev'⟩, godown) := by
    intro gp' hgp'
    unfold Globals.groupSegmentUpdate
    rw [hgp', hs₂]
    exact bind_eq_ok.mpr ⟨_, hremove, bind_eq_ok.mpr ⟨_, hinsert, rfl⟩⟩
  have hsize : ∀ (s : Globals) (gp' : Group P) (n : ℕ) (b : Bool), gp'.cacheFlag = gp.cacheFlag →
      s.leaCacheSizeUpdate gp' n b
        = .ok { s with lruNowByte := if b then s.lruNowByte - n else s.lruNowByte + n } := by
    intro s gp' n b hflag
    exact bind_eq_ok.mpr ⟨(), require_eq_ok.mpr (hflag.trans hcached), rfl⟩
  have hcard : ∀ s : Globals, s.masterCrb = s₂.masterCrb →
      s.crbSize gp.mapIdx = .ok ((s₂.masterCrb gp.mapIdx).card * 4) := by
    intro s hs
    unfold Globals.crbSize
    rw [hs]
    exact bind_eq_ok.mpr ⟨(), require_eq_ok.mpr hcrb', rfl⟩
  subst hs₁
  by_cases hnil : godown = []
  · apply Exists.intro
    apply Exists.intro
    constructor
    · refine bind_eq_ok.mpr ⟨_, bind_eq_ok.mpr ⟨(), require_eq_ok.mpr hcrb, rfl⟩, ?_⟩
      refine bind_eq_ok.mpr ⟨_, hsize s gp _ true rfl, ?_⟩
      refine bind_eq_ok.mpr ⟨_, hupdate _ rfl, ?_⟩
      refine bind_eq_ok.mpr ⟨_, hcard _ rfl, ?_⟩
      refine bind_eq_ok.mpr ⟨_, hsize _ _ _ false rfl, ?_⟩
      rw [hnil]
      rfl
    · refine ⟨hcnt, hfast, hlist, rfl, congrArg (· ++ freed.map _) hfreed, rfl, rfl, 0, ?_⟩
      rw [newLevels, if_pos hnil]
  · apply Exists.intro
    apply Exists.intro
    constructor
    · refine bind_eq_ok.mpr ⟨_, bind_eq_ok.mpr ⟨(), require_eq_ok.mpr hcrb, rfl⟩, ?_⟩
      refine bind_eq_ok.mpr ⟨_, hsize s gp _ true rfl, ?_⟩
      refine bind_eq_ok.mpr ⟨_, hupdate _ rfl, ?_⟩
      refine bind_eq_ok.mpr ⟨_, hcard _ rfl, ?_⟩
      refine bind_eq_ok.mpr ⟨_, hsize _ _ _ false rfl, ?_⟩
      refine Eq.trans (if_pos fun hlen => hnil (List.length_eq_zero_iff.mp hlen)) ?_
      refine bind_eq_ok.mpr ⟨_, bind_eq_ok.mpr ⟨_, hsize _ _ _ false rfl, rfl⟩, rfl⟩
    · refine ⟨hcnt, hfast, hlist, rfl, congrArg (· ++ freed.map _) hfreed, rfl, rfl, s₂.levelCnt, ?_⟩
      rw [newLevels, if_neg hnil]

/-- The fast search of the addresses of a new segment. -/
theorem setSegFastSearch_fields (s : Globals) (lba : List ℕ) (seg : ℕ) :
  (s.setSegFastSearch lba seg).cnt = s.cnt ∧ (s.setSegFastSearch lba seg).fastSearch = s.fastSearch
    ∧ (s.fastSearch = true → ∀ l,
      (s.setSegFastSearch lba seg).segList l = if l ∈ lba then some seg else s.segList l)
    ∧ (s.setSegFastSearch lba seg).masterCrb = s.masterCrb
    ∧ (s.setSegFastSearch lba seg).freed = s.freed
    ∧ (s.setSegFastSearch lba seg).levelCnt = s.levelCnt
    ∧ (s.setSegFastSearch lba seg).lruNowByte = s.lruNowByte
  := by
  unfold Globals.setSegFastSearch
  split
  · exact ⟨rfl, rfl, fun _ _ => rfl, rfl, rfl, rfl, rfl⟩
  · rename_i hoff
    exact ⟨rfl, rfl, fun hon => absurd hon hoff, rfl, rfl, rfl, rfl⟩

/-- Level 0 of a group, which may be new. -/
theorem firstLevel_fields (s : Globals) (gp : Group P) :
  ∃ s' lev rest, s.firstLevel gp = (s', lev, rest) ∧ lev.segs = gp.level0
    ∧ gp.segs = gp.level0 ++ rest.flatMap (·.segs) ∧ s'.cnt = s.cnt
    ∧ s'.fastSearch = s.fastSearch ∧ s'.segList = s.segList ∧ s'.masterCrb = s.masterCrb
    ∧ s'.freed = s.freed
  := by
  unfold Globals.firstLevel Group.level0 Group.segs
  match gp.levelList with
  | none => exact ⟨_, _, _, rfl, rfl, rfl, rfl, rfl, rfl, rfl, rfl⟩
  | some [] => exact ⟨_, _, _, rfl, rfl, rfl, rfl, rfl, rfl, rfl, rfl⟩
  | some (lev :: rest) => exact ⟨_, _, _, rfl, rfl, rfl, rfl, rfl, rfl, rfl, rfl⟩

/-- The conflict buffer gets no other addresses than those of the new segment. -/
theorem mem_crbUpdate {s : Globals} {tmap : TempMap} {mapIdx l : ℕ} {type : SegmentType}
    (hl : l ∈ (s.crbUpdate tmap mapIdx type).masterCrb mapIdx) :
  l ∈ s.masterCrb mapIdx ∨ l ∈ tmap.lba
  := by
  cases type with
  | accurate =>
      simp only [Globals.crbUpdate, Globals.crbRemoveOverlap, Function.update_self,
        Finset.mem_sdiff] at hl
      left
      apply hl.1
  | approximate =>
      simp only [Globals.crbUpdate, Globals.crbInsert, Function.update_self, Finset.mem_union,
        List.mem_toFinset] at hl
      apply hl

/-- The conflict buffers of the other groups stay as they are. -/
theorem crbUpdate_of_ne (s : Globals) (tmap : TempMap) {mapIdx g : ℕ} (type : SegmentType)
    (hg : g ≠ mapIdx) :
  (s.crbUpdate tmap mapIdx type).masterCrb g = s.masterCrb g
  := by
  cases type with
  | accurate => apply Function.update_of_ne hg
  | approximate => apply Function.update_of_ne hg

section NewLevels

variable {gp gp' : Group P} {ptr : ℕ} {lev : Level P} {rest : List (Level P)}
  {godown : List (Segment P)}

theorem level0_newLevels (hlevels : gp'.levelList = some (newLevels ptr lev rest godown)) :
  gp'.level0 = lev.segs
  := by
  unfold Group.level0
  rw [hlevels, newLevels]
  split
  · rename_i hsplit
    split at hsplit
    · cases hsplit
      rfl
    · cases hsplit
      rfl
  · rename_i hsplit
    split at hsplit
    · exact absurd rfl (hsplit _ _)
    · exact absurd rfl (hsplit _ _)

theorem mem_segs_newLevels (hlevels : gp'.levelList = some (newLevels ptr lev rest godown))
    (a : Segment P) :
  a ∈ gp'.segs ↔ a ∈ lev.segs ∨ (∃ b ∈ godown, { b with levelPtr := some ptr } = a) ∨
    a ∈ rest.flatMap (·.segs)
  := by
  unfold Group.segs
  rw [hlevels, newLevels]
  split
  · rename_i hnil
    simp [hnil]
  · simp

variable {new : Segment P} {freed : List ℕ}

/-- No segment leaves the group without being freed, and the new one is in it. -/
theorem Replaced.live (h : Replaced new gp.level0 lev.segs godown freed)
    (hsegs : gp.segs = gp.level0 ++ rest.flatMap (·.segs))
    (hlevels : gp'.levelList = some (newLevels ptr lev rest godown)) {k : ℕ}
    (hk : k ∈ gp.live ∨ k = new.seq) :
  k ∈ gp'.live ∨ k ∈ freed
  := by
  have hlive : ∀ a ∈ gp'.segs, a.seq ∈ gp'.live := fun a ha => List.mem_map_of_mem ha
  rcases hk with hk | rfl
  · obtain ⟨a, ha, rfl⟩ := List.mem_map.mp hk
    rw [hsegs, List.mem_append] at ha
    rcases ha with ha | ha
    · rcases h.kept a ha with hin | hdown | hfreed
      · left
        apply hlive a ((mem_segs_newLevels hlevels a).mpr (.inl hin))
      · left
        apply hlive { a with levelPtr := some ptr }
        apply (mem_segs_newLevels hlevels _).mpr (.inr (.inl ⟨a, hdown, rfl⟩))
      · right
        apply hfreed
    · left
      apply hlive a ((mem_segs_newLevels hlevels a).mpr (.inr (.inr ha)))
  · obtain ⟨a, ha, hseq⟩ := h.inserted
    left
    rw [← hseq]
    apply hlive a ((mem_segs_newLevels hlevels a).mpr (.inl ha))

/-- The segments of the group were in it before, up to their level, or are the new one. -/
theorem Replaced.same (h : Replaced new gp.level0 lev.segs godown freed)
    (hsegs : gp.segs = gp.level0 ++ rest.flatMap (·.segs))
    (hlevels : gp'.levelList = some (newLevels ptr lev rest godown)) {a : Segment P}
    (ha : a ∈ gp'.segs) :
  (∃ b ∈ gp.segs, Same a b) ∨ Same a new
  := by
  rw [hsegs]
  rcases (mem_segs_newLevels hlevels a).mp ha with ha | ⟨b, hb, rfl⟩ | ha
  · refine (h.mem a ha).imp (fun ha => ⟨a, ?_, rfl⟩) id
    apply List.mem_append_left _ ha
  · left
    use b, List.mem_append_left _ (h.down b hb)
    rfl
  · left
    use a, List.mem_append_right _ ha
    rfl

end NewLevels

theorem groupInsert_inserted {i : Insert} {s : Globals} {gp : Group P} (hi : i.Valid gp.mapIdx)
    (hcached : gp.cacheFlag = .cached) (hlevel : Ordered gp.level0)
    (hcrb : ∀ l ∈ s.masterCrb gp.mapIdx, l / mapInTrans = gp.mapIdx) :
  ∃ s' gp', s.groupInsert pr gp i.tmap i.type i.interval i.ptr = .ok (s', gp')
    ∧ Inserted pr i s gp s' gp'
  := by
  obtain ⟨new, hmake, hmade, hseq⟩ := segmentMake_made pr hi s.cnt
  obtain ⟨hcnt₀, hfast₀, hlist₀, hmaster₀, hfreed₀, -, -⟩ :=
    setSegFastSearch_fields { s with cnt := s.cnt + 1 } i.tmap.lba new.seq
  obtain ⟨s₁, lev, rest, hfirst, hlev, hsegs, hcnt, hfast, hlist, hmaster, hfreed⟩ :=
    firstLevel_fields ({ s with cnt := s.cnt + 1 }.setSegFastSearch i.tmap.lba new.seq) gp
  rw [hmaster₀] at hmaster
  obtain ⟨segs, lev', godown, freed, hremove, hinsert, hreplaced⟩ :=
    level_replaced lev.ptr hlevel (hmade.le hi)
  rw [← hlev] at hremove
  have hcrb' : ∀ l ∈ (s₁.crbUpdate i.tmap gp.mapIdx new.type).masterCrb gp.mapIdx,
      l ∈ s.masterCrb gp.mapIdx ∨ l ∈ i.tmap.lba := by
    intro l hl
    rw [← hmaster]
    apply mem_crbUpdate hl
  obtain ⟨s', gp', hrun, hcnt', hfast', hlist', hmaster', hfreed', hflag', hidx', ptr, hlevels⟩ :=
    @insertTarget_ok P pr s₁ gp lev rest i.tmap new segs lev' godown freed hcached
      (card_le_of_group (by rw [hmaster]; exact hcrb))
      (card_le_of_group fun l hl => (hcrb' l hl).elim (hcrb l) (hi.group l)) hremove hinsert
  have hlevel0 : gp'.level0 = lev' := level0_newLevels hlevels
  refine ⟨s', gp', bind_eq_ok.mpr ⟨new, hmake, ?_⟩, ?_⟩
  · dsimp only
    rw [hfirst]
    apply hrun
  · constructor
    · rw [hcnt', hcnt, hcnt₀]
    · rw [hfast', hfast, hfast₀]
    · apply hflag'
    · apply hidx'
    · intro hon l
      rw [hlist', hlist, hlist₀ hon, hseq]
    · rw [hmaster']
      apply hcrb'
    · intro g hg
      rw [hmaster', crbUpdate_of_ne _ _ _ hg, hmaster]
    · refine ⟨new, godown, freed, hmade, hseq, ?_, ?_, ?_, ?_⟩
      · rw [hfreed', hfreed, hfreed₀, hseq]
      · rw [hlevel0]
        apply hreplaced
      · intro k hk
        rw [← hseq] at hk
        apply Replaced.live hreplaced hsegs hlevels hk
      · intro a ha
        apply Replaced.same hreplaced hsegs hlevels ha

end Step

/-! ### Runs -/

section Runs

/-- The group `mapIdx` and the globals before the first insertion. -/
def init (P : Type) (mapIdx : ℕ) : Globals × Group P :=
  ({ fastSearch := true
     segList := fun _ => none
     masterCrb := fun _ => ∅
     nowSegmentNum := 0
     lruNowByte := 0
     cnt := 0
     levelCnt := 0
     freed := [] },
   { levelList := some []
     mapIdx := mapIdx
     segmentNum := 0
     size := 0
     cacheFlag := .cached
     isclean := true })

variable (pr : Predictor P)

/-- A call of `group_insert`. -/
def insertStep (s : Globals × Group P) (i : Insert) : Except Abort (Globals × Group P) :=
  s.1.groupInsert pr s.2 i.tmap i.type i.interval i.ptr

/-- No pointer of level 0 is taken for a stride. -/
def Unmistaken (s : Globals × Group P) (i : Insert) : Prop :=
  ∀ a ∈ s.2.level0, mistaken i a = false

instance (s : Globals × Group P) (i : Insert) : Decidable (Unmistaken s i) :=
  inferInstanceAs (Decidable (∀ a ∈ s.2.level0, mistaken i a = false))

/-- The `k`-th insertion is the last one that has an address. -/
def IsNewest (ins : List Insert) (lba k : ℕ) : Prop :=
  ∃ i, ins[k]? = some i ∧ lba ∈ i.tmap.lba
    ∧ ∀ j i', k < j → ins[j]? = some i' → lba ∉ i'.tmap.lba

/-- The groups after the insertions `h`; the `k`-th of them has made the segment `k`. -/
structure Inv (gps : ℕ → Group P) (h : List Insert) (s : Globals) : Prop where
  cnt : s.cnt = h.length
  fastSearch : s.fastSearch = true
  cached : ∀ g, (gps g).cacheFlag = .cached
  index : ∀ g, (gps g).mapIdx = g
  crb : ∀ g, ∀ l ∈ s.masterCrb g, l / mapInTrans = g
  ordered : ∀ g, Ordered (gps g).level0
  made : ∀ g, ∀ a ∈ (gps g).segs, ∃ i, h[a.seq]? = some i ∧ i.Valid g ∧ Made pr i a
  newest : ∀ lba k, s.segList lba = some k ↔ IsNewest h lba k
  covered : ∀ r ∈ s.freed, r.1 < r.2 ∧ ∃ i j, h[r.1]? = some i ∧ h[r.2]? = some j
    ∧ ∀ l ∈ i.tmap.lba, l ∈ j.tmap.lba
  live : ∀ k i, h[k]? = some i → (∃ g, i.Valid g ∧ k ∈ (gps g).live) ∨ k ∈ s.freed.map Prod.fst

variable {pr} {gps : ℕ → Group P} {h : List Insert} {s : Globals} {i : Insert}

theorem mem_segs_of_level0 {gp : Group P} {a : Segment P} (ha : a ∈ gp.level0) :
  a ∈ gp.segs
  := by
  unfold Group.level0 at ha
  unfold Group.segs
  split at ha
  · rename_i lev rest hl
    rw [hl]
    apply List.mem_append_left _ ha
  · cases ha

theorem isNewest_append {lba k : ℕ} :
  IsNewest (h ++ [i]) lba k ↔ if lba ∈ i.tmap.lba then k = h.length else IsNewest h lba k
  := by
  have hlast : (h ++ [i])[h.length]? = some i := List.getElem?_concat_length
  constructor
  · rintro ⟨i', hi', hmem, hlater⟩
    have hk := (List.getElem?_eq_some_iff.mp hi').1
    rw [List.length_append, List.length_singleton] at hk
    split
    · rename_i hin
      by_contra hne
      apply hlater h.length i (by omega) hlast hin
    · rename_i hout
      have hlt : k < h.length := by
        by_contra hge
        obtain rfl : k = h.length := by omega
        rw [hlast] at hi'
        cases hi'
        apply hout hmem
      rw [List.getElem?_append_left hlt] at hi'
      use i', hi', hmem
      intro j i'' hj hi''
      apply hlater j i'' hj
      rw [List.getElem?_append_left (List.getElem?_eq_some_iff.mp hi'').1]
      apply hi''
  · split
    · rintro rfl
      rename_i hin
      use i, hlast, hin
      intro j i' hj hi'
      have hlt := (List.getElem?_eq_some_iff.mp hi').1
      rw [List.length_append, List.length_singleton] at hlt
      omega
    · rename_i hout
      rintro ⟨i', hi', hmem, hlater⟩
      have hlt := (List.getElem?_eq_some_iff.mp hi').1
      refine ⟨i', by rw [List.getElem?_append_left hlt]; exact hi', hmem, ?_⟩
      intro j i'' hj hi''
      rcases Nat.lt_or_ge j h.length with hjl | hjl
      · rw [List.getElem?_append_left hjl] at hi''
        apply hlater j i'' hj hi''
      · have hjlt := (List.getElem?_eq_some_iff.mp hi'').1
        rw [List.length_append, List.length_singleton] at hjlt
        obtain rfl : j = h.length := by omega
        rw [hlast] at hi''
        cases hi''
        apply hout

/-- The groups before the first insertion. -/
def noGroups (P : Type) (g : ℕ) : Group P := (init P g).2

theorem inv_init (pr : Predictor P) (mapIdx : ℕ) :
  Inv pr (noGroups P) [] (init P mapIdx).1
  where
    cnt := rfl
    fastSearch := rfl
    cached _ := rfl
    index _ := rfl
    crb := by simp [init]
    ordered _ := ⟨by simp [noGroups, init, Group.level0], List.Pairwise.nil⟩
    made := by simp [noGroups, init, Group.segs]
    newest := by simp [init, IsNewest]
    covered := by simp [init]
    live := by simp

/-- One insertion. -/
theorem groupInsert_inv {g : ℕ} (hinv : Inv pr gps h s) (hi : i.Valid g)
    (hguard : ∀ a ∈ (gps g).level0, mistaken i a = false) :
  ∃ s' gp', s.groupInsert pr (gps g) i.tmap i.type i.interval i.ptr = .ok (s', gp')
    ∧ Inv pr (Function.update gps g gp') (h ++ [i]) s'
  := by
  have hidx := hinv.index g
  obtain ⟨s', gp', hstep, hins⟩ := @groupInsert_inserted P pr i s (gps g) (by rw [hidx]; exact hi)
    (hinv.cached g) (hinv.ordered g) (by rw [hidx]; exact hinv.crb g)
  obtain ⟨new, godown, freed, hmade, hseq, hfreed, hrep, hlive, hsegs⟩ := hins.levels
  have hcnt := hinv.cnt
  have hlast : (h ++ [i])[s.cnt]? = some i := by
    rw [hcnt]
    apply List.getElem?_concat_length
  have hold : ∀ {k : ℕ} {i' : Insert}, h[k]? = some i' → (h ++ [i])[k]? = some i' := by
    intro k i' hk
    rw [List.getElem?_append_left (List.getElem?_eq_some_iff.mp hk).1]
    apply hk
  have hgroups : ∀ {R : ℕ → Group P → Prop}, R g gp' → (∀ g', g' ≠ g → R g' (gps g')) →
      ∀ g', R g' (Function.update gps g gp' g') := by
    intro R hg hothers
    apply (Function.forall_update_iff gps R).mpr ⟨hg, hothers⟩
  use s', gp', hstep
  constructor
  · rw [List.length_append, List.length_singleton, ← hcnt]
    apply hins.cnt
  · apply hins.fastSearch.trans hinv.fastSearch
  · apply hgroups (R := fun _ gp => gp.cacheFlag = .cached) (hins.cacheFlag.trans (hinv.cached g))
      fun g' _ => hinv.cached g'
  · apply hgroups (R := fun g' gp => gp.mapIdx = g') (hins.mapIdx.trans hidx) fun g' _ => hinv.index g'
  · intro g' l hl
    by_cases heq : g' = g
    · rw [heq] at hl ⊢
      have hcrb := hins.crb l
      rw [hidx] at hcrb
      apply (hcrb hl).elim (hinv.crb g l) (hi.group l)
    · rw [hins.others g' (by rw [hidx]; exact heq)] at hl
      apply hinv.crb g' l hl
  · apply hgroups (R := fun _ gp => Ordered gp.level0) hrep.ordered fun g' _ => hinv.ordered g'
  · refine hgroups (R := fun g' gp => ∀ a ∈ gp.segs, ∃ i', (h ++ [i])[a.seq]? = some i'
      ∧ i'.Valid g' ∧ Made pr i' a) ?_ ?_
    · intro a ha
      rcases hsegs a ha with ⟨b, hb, hsame⟩ | hsame
      · obtain ⟨i', hi', hvalid, hmade'⟩ := hinv.made g b hb
        exact ⟨i', by rw [hsame.seq]; exact hold hi', hvalid, hmade'.of_same hsame⟩
      · exact ⟨i, by rw [hsame.seq, hseq]; exact hlast, hi, hmade.of_same hsame⟩
    · intro g' _ a ha
      obtain ⟨i', hi', hrest⟩ := hinv.made g' a ha
      exact ⟨i', hold hi', hrest⟩
  · intro lba k
    rw [isNewest_append, hins.segList hinv.fastSearch]
    split
    · rw [Option.some.injEq, hcnt]
      apply eq_comm
    · apply hinv.newest lba k
  · intro r hr
    rw [hfreed] at hr
    obtain hr | hr := List.mem_append.mp hr
    · obtain ⟨hlt, i₁, i₂, h₁, h₂, hsub⟩ := hinv.covered r hr
      use hlt, i₁, i₂, hold h₁, hold h₂, hsub
    · obtain ⟨k, hk, rfl⟩ := List.mem_map.mp hr
      obtain ⟨a, ha, rfl, hacc, hremovable⟩ := hrep.removable k hk
      obtain ⟨i₁, h₁, hvalid₁, hmade₁⟩ := hinv.made g a (mem_segs_of_level0 ha)
      refine ⟨?_, i₁, i, hold h₁, hlast, ?_⟩
      · dsimp only
        rw [hcnt]
        apply (List.getElem?_eq_some_iff.mp h₁).1
      · apply lba_mem_of_removable hmade₁ hvalid₁ hmade hi (hmade.type.symm.trans hacc)
          (hguard a ha) hremovable
  · intro k i' hi'
    rw [hfreed, List.map_append, List.mem_append, List.map_map]
    have hnew : k ∈ (gps g).live ∨ k = s.cnt → k ∈ gp'.live
        ∨ k ∈ s.freed.map Prod.fst ∨ k ∈ freed.map (Prod.fst ∘ fun seq => (seq, s.cnt)) := by
      intro hk
      apply (hlive k hk).imp id fun hk => .inr (List.mem_map.mpr ⟨k, hk, rfl⟩)
    rcases Nat.lt_or_ge k h.length with hlt | hge
    · rw [List.getElem?_append_left hlt] at hi'
      rcases hinv.live k i' hi' with ⟨g', hvalid, hk⟩ | hk
      · by_cases heq : g' = g
        · rw [heq] at hvalid hk
          refine (hnew (.inl hk)).imp (fun hk => ⟨g, hvalid, ?_⟩) id
          rw [Function.update_self]
          apply hk
        · refine .inl ⟨g', hvalid, ?_⟩
          rw [Function.update_of_ne heq]
          apply hk
      · right
        left
        apply hk
    · have hlt := (List.getElem?_eq_some_iff.mp hi').1
      rw [List.length_append, List.length_singleton] at hlt
      obtain rfl : k = s.cnt := by omega
      rw [hlast] at hi'
      cases hi'
      refine (hnew (.inr rfl)).imp (fun hk => ⟨g, hi, ?_⟩) id
      rw [Function.update_self]
      apply hk

/-- The newest segment of an address has not been freed. -/
theorem Inv.newest_live (hinv : Inv pr gps h s) {lba k : ℕ} (hk : s.segList lba = some k) :
  k ∈ (gps (lba / mapInTrans)).live ∧ k ∉ s.freed.map Prod.fst
  := by
  obtain ⟨i, hi, hmem, hlater⟩ := (hinv.newest lba k).mp hk
  have hnot : k ∉ s.freed.map Prod.fst := by
    intro hfreed
    obtain ⟨r, hr, rfl⟩ := List.mem_map.mp hfreed
    obtain ⟨hlt, i₁, i₂, h₁, h₂, hsub⟩ := hinv.covered r hr
    rw [hi] at h₁
    cases h₁
    apply hlater r.2 i₂ hlt h₂ (hsub lba hmem)
  obtain ⟨g, hvalid, hlive⟩ := (hinv.live k i hi).resolve_right hnot
  rw [hvalid.group lba hmem]
  use hlive, hnot

/-- The table of the newest segments: it has for every address the segment of the last insertion
that has it, which is in a level of the group, and what is freed is covered by the segment for
which it is freed. -/
def NewestWins (ins : List Insert) (s : Globals × Group P) : Prop :=
  (∀ lba k, s.1.segList lba = some k ↔ IsNewest ins lba k)
    ∧ (∀ lba k, s.1.segList lba = some k → k ∈ s.2.live ∧ k ∉ s.1.freed.map Prod.fst)
    ∧ ∀ r ∈ s.1.freed, ∃ i j, ins[r.1]? = some i ∧ ins[r.2]? = some j
      ∧ ∀ l ∈ i.tmap.lba, l ∈ j.tmap.lba

variable (pr)

/-- All insertions go to the group `mapIdx`. -/
def Alone (mapIdx : ℕ) (h : List Insert) (s : Globals × Group P) : Prop :=
  (∀ i ∈ h, i.Valid mapIdx) ∧ Inv pr (Function.update (noGroups P) mapIdx s.2) h s.1

/-- In every run of insertions in which no pointer is taken for a stride, the newest segment of
every address is in the table and has not been freed. -/
theorem insert_newestWins (mapIdx : ℕ) (ins : List Insert) (hvalid : ∀ i ∈ ins, i.Valid mapIdx)
    (hguard : Guarded (insertStep pr) Unmistaken (init P mapIdx) ins) :
  ∃ s, run (insertStep pr) (init P mapIdx) ins = .ok s ∧ NewestWins ins s
  := by
  have hvalid' : Guarded (insertStep pr) (fun _ i => i.Valid mapIdx) (init P mapIdx) ins
    := guarded_of_forall (fun i hi _ => hvalid i hi) _
  have hkeep : ∀ h s i, Alone pr mapIdx h s → i.Valid mapIdx ∧ Unmistaken s i →
      ∃ s', insertStep pr s i = .ok s' ∧ Alone pr mapIdx (h ++ [i]) s' := by
    rintro h s i ⟨hall, hinv⟩ ⟨hi, hunmistaken⟩
    obtain ⟨s', gp', hstep, hinv'⟩ := groupInsert_inv hinv hi (by
      rw [Function.update_self]
      exact hunmistaken)
    rw [Function.update_self] at hstep
    rw [Function.update_idem] at hinv'
    refine ⟨(s', gp'), hstep, ?_, hinv'⟩
    intro i' hi'
    obtain hi' | hi' := List.mem_append.mp hi'
    · apply hall i' hi'
    · rw [List.mem_singleton.mp hi']
      apply hi
  have hinit : Inv pr (Function.update (noGroups P) mapIdx (init P mapIdx).2) [] (init P mapIdx).1 := by
    have hself : Function.update (noGroups P) mapIdx (init P mapIdx).2 = noGroups P
      := Function.update_eq_self mapIdx (noGroups P)
    rw [hself]
    apply inv_init pr mapIdx
  obtain ⟨s, hrun, hall, hinv⟩ := run_progress (Alone pr mapIdx) hkeep ⟨by simp, hinit⟩
    (hvalid'.and hguard)
  rw [List.nil_append] at hall hinv
  refine ⟨s, hrun, hinv.newest, ?_, fun r hr => (hinv.covered r hr).2⟩
  intro lba k hk
  have hlive := hinv.newest_live hk
  obtain ⟨i, hi, hmem, -⟩ := (hinv.newest lba k).mp hk
  rw [(hall i (List.mem_of_getElem? hi)).group lba hmem, Function.update_self] at hlive
  apply hlive

end Runs

/-- A `PLR` whose points are on one line. -/
def oneLine : Predictor (List (ℕ × ℕ)) where
  make := id
  get l lba := (l.find? fun q => q.1 = lba).elim 0 Prod.snd
  lineCnt _ := 1

/-- An approximate segment, and two accurate ones of which the second covers the first. -/
def overlapping : List Insert :=
  [⟨⟨[0, 1, 3], [0, 1, 2]⟩, .approximate, 0, 0x5500000020⟩,
    ⟨⟨[2, 4], [4, 5]⟩, .accurate, 2, 0⟩,
    ⟨⟨[0, 2, 4, 6], [8, 9, 10, 11]⟩, .accurate, 2, 0⟩]

theorem insert_newestWins_overlapping :
  ∃ s, run (insertStep oneLine) (init _ 0) overlapping = .ok s ∧ NewestWins overlapping s
    ∧ s.1.freed = [(1, 2)]
  := by
  obtain ⟨s, hrun, hnewest⟩ := insert_newestWins oneLine 0 overlapping
    (by
      intro i hi
      simp only [overlapping, List.mem_cons, List.not_mem_nil, or_false] at hi
      rcases hi with rfl | rfl | rfl
      all_goals
        constructor
        all_goals decide)
    (by decide)
  have hfreed : (run (insertStep oneLine) (init _ 0) overlapping).map (fun s => s.1.freed)
      = .ok [(1, 2)] := rfl
  rw [hrun] at hfreed
  use s, hrun, hnewest, Except.ok.inj hfreed

/-- The lower half of the pointer of the first segment is the stride of the second one. -/
def pointerStride : List Insert :=
  [⟨⟨[0, 1, 3], [0, 1, 2]⟩, .approximate, 0, 0x5500000010⟩,
    ⟨⟨[0, 16, 32], [4, 5, 6]⟩, .accurate, 16, 0⟩]

/-- The segment of the address 1 is freed while the table points to it. -/
theorem not_newestWins_pointerStride :
  (∀ i ∈ pointerStride, i.Valid 0)
    ∧ ∃ s, run (insertStep oneLine) (init _ 0) pointerStride = .ok s
      ∧ s.1.segList 1 = some 0 ∧ s.1.freed = [(0, 1)] ∧ ¬ NewestWins pointerStride s
  := by
  constructor
  · intro i hi
    simp only [pointerStride, List.mem_cons, List.not_mem_nil, or_false] at hi
    rcases hi with rfl | rfl
    all_goals
      constructor
      all_goals decide
  · refine ⟨_, rfl, rfl, rfl, ?_⟩
    intro h
    apply (h.2.1 1 0 rfl).2 (by decide)

end LeaFtl

end AppL
