import AppL.SegmentPool
import AppL.LeaFtl.WriteBuffer

/-!
# Sequential pages

A segment gives its pages one after another, from the time it leaves the free queue to the time
it is erased, whatever else is called in between.  What `pm_remain_space` computes from the next
page is the number of pages that are left.
-/

namespace AppL

open Transition BlockManager

namespace BlockManager

variable {g : Geometry} {bm : BlockManager} {s u : ℕ}

theorem Filled.bptr_lt (h : Filled g bm s u) :
  (bm.segment s).nowAssignedBptr < g.bps
  := by
  have hpps := g.pps_pos
  have hle := h.le
  rw [h.bptr]
  apply Nat.div_lt_of_lt_mul
  unfold Geometry.pps at hpps hle
  omega

/-- While a segment is not full, the next page can be seen. -/
theorem Filled.pickPageAddr (h : Filled g bm s u) (hu : u < g.pps) :
  bm.pickPageAddr g s = .ok (some (s * g.pps + u))
  := by
  have hpos := g.ppb_pos
  have hlast : ¬ ((bm.segment s).nowAssignedBptr = 0 ∧
      (bm.block (s * g.bps + (g.bps - 1))).nowAssignedPptr = g.ppb) := by
    rintro ⟨-, hl⟩
    have := h.lastPptr.mp hl
    omega
  have hpage : (bm.block (s * g.bps + (bm.segment s).nowAssignedBptr)).nowAssignedPptr
      = u - (u - 1) / g.ppb * g.ppb := by
    rw [h.pptr _ h.bptr_lt, h.bptr]
    have hdiv := Nat.div_add_mod (u - 1) g.ppb
    have hmod := Nat.mod_lt (u - 1) hpos
    rw [Nat.mul_comm] at hdiv
    omega
  have hle : (u - 1) / g.ppb * g.ppb ≤ u := (Nat.div_mul_le_self _ _).trans (Nat.sub_le u 1)
  have hres : (s * g.bps + (u - 1) / g.ppb) * g.ppb + (u - (u - 1) / g.ppb * g.ppb)
      = s * g.pps + u := by
    rw [Geometry.pps, Nat.add_mul, Nat.mul_assoc, Nat.mul_comm g.bps]
    omega
  have hpage_le : ¬ u - (u - 1) / g.ppb * g.ppb > g.ppb := by
    rw [← hpage, h.pptr _ h.bptr_lt]
    omega
  have hnot : ¬ (bm.block (s * g.bps + (bm.segment s).nowAssignedBptr)).nowAssignedPptr > g.ppb := by
    rw [hpage]
    apply hpage_le
  unfold BlockManager.pickPageAddr
  dsimp only
  rw [if_neg hlast, if_neg hnot, hpage, h.bptr, hres]

/-- The results of `n` calls of `sbm_get_page_addr`. -/
def takePages (g : Geometry) (s : ℕ) : ℕ → BlockManager → Except Abort (List (Option ℕ))
  | 0, _ => .ok []
  | n + 1, bm => do
      let (page, bm) ← bm.getPageAddr g s
      let pages ← takePages g s n bm
      return page :: pages

/-- The `i`-th page of a segment. -/
def nthPage (g : Geometry) (s i : ℕ) : Option ℕ := if i < g.pps then some (s * g.pps + i) else none

/-- A call gives the next page. -/
theorem Filled.getPageAddr (h : Filled g bm s u) :
  ∃ bm', bm.getPageAddr g s = .ok (nthPage g s u, bm') ∧ Filled g bm' s (min (u + 1) g.pps)
  := by
  rcases Nat.lt_or_ge u g.pps with hu | hu
  · refine ⟨bm.assignPage g s u, ?_, ?_⟩
    · rw [nthPage, if_pos hu]
      apply h.getPageAddr_next hu
    · rw [Nat.min_eq_left hu]
      apply h.assignPage hu
  · obtain rfl : u = g.pps := Nat.le_antisymm h.le hu
    refine ⟨bm, ?_, ?_⟩
    · rw [nthPage, if_neg (Nat.lt_irrefl _)]
      apply h.getPageAddr_full
    · rw [Nat.min_eq_right (Nat.le_succ _)]
      apply h

theorem Filled.takePages (n : ℕ) :
  ∀ {bm : BlockManager} {k : ℕ}, Filled g bm s (min k g.pps) →
    bm.takePages g s n = .ok ((List.range n).map fun i => nthPage g s (k + i))
  := by
  induction n with
  | zero => exact fun _ => rfl
  | succ n ih =>
      intro bm k h
      obtain ⟨bm', hget, hfilled⟩ := h.getPageAddr
      have hnext : min (min k g.pps + 1) g.pps = min (k + 1) g.pps := by omega
      have hpage : nthPage g s (min k g.pps) = nthPage g s k := by
        unfold nthPage
        rcases Nat.lt_or_ge k g.pps with hk | hk
        · rw [Nat.min_eq_left hk.le]
        · rw [Nat.min_eq_right hk, if_neg (Nat.lt_irrefl _), if_neg (Nat.not_lt.mpr hk)]
      rw [hnext] at hfilled
      rw [hpage] at hget
      refine bind_eq_ok.mpr ⟨_, hget, bind_eq_ok.mpr ⟨_, ih hfilled, ?_⟩⟩
      rw [List.range_succ_eq_map, List.map_cons, List.map_map, Nat.add_zero]
      congr 3
      funext i
      dsimp only [Function.comp]
      congr 1
      omega

/-- The pages that are left when `k` have been asked for. -/
theorem countP_nthPage (n k : ℕ) :
  ((List.range n).map fun i => nthPage g s (k + i)).countP (·.isSome) = min n (g.pps - k)
  := by
  induction n with
  | zero => simp
  | succ n ih =>
      rw [List.range_succ, List.map_append, List.countP_append, ih]
      unfold nthPage
      rcases Nat.lt_or_ge (k + n) g.pps with h | h
      · simp only [List.map_cons, List.map_nil, if_pos h, List.countP_singleton, Option.isSome_some]
        rw [if_pos trivial]
        omega
      · simp only [List.map_cons, List.map_nil, if_neg (Nat.not_lt.mpr h), List.countP_singleton,
          Option.isSome_none]
        rw [if_neg Bool.false_ne_true]
        omega

end BlockManager

namespace LeaFtl

/-- `pm_remain_space` is what is left of the segment. -/
theorem pmRemainSpace_eq {g : Geometry} {bm : BlockManager} {s u : ℕ} (h : Filled g bm s u) :
  PageManager.pmRemainSpace g ⟨bm, s⟩ = .ok (g.pps - u)
  := by
  unfold PageManager.pmRemainSpace
  by_cases hfull : bm.checkFull g s = true
  · rw [if_pos hfull, h.checkFull_iff.mp hfull, Nat.sub_self]
  · have hu : u < g.pps := Nat.lt_of_le_of_ne h.le (mt h.checkFull_iff.mpr hfull)
    rw [if_neg hfull]
    refine bind_eq_ok.mpr ⟨_, h.pickPageAddr hu, bind_eq_ok.mpr ⟨_, orThrow_eq_ok.mpr rfl, ?_⟩⟩
    rw [Nat.mul_add_mod_self_right, Nat.mod_eq_of_lt hu]
    rfl

end LeaFtl

namespace SegmentPool

/-- Pages are taken from a segment that has been handed out. -/
def HandedOut (p : SegmentPool) : SegmentOp → Prop
  | .getPageAddr s => s ∉ p.bm.freeSegmentQ
  | _ => True

/-- The other calls on a segment, before it is erased. -/
def Keeps (s : ℕ) (op : SegmentOp) : Prop := op ≠ .trimSegment s

/-- Every segment has given its first pages, and a free segment none. -/
def Assigned (g : Geometry) (p : SegmentPool) : Prop :=
  ∀ s, ∃ u, Filled g p.bm s u ∧ (s ∈ p.bm.freeSegmentQ → u = 0)

/-- `k` pages of a segment have been asked for: what the next `n` calls give, and the space that
is left. -/
structure Sequential (g : Geometry) (bm : BlockManager) (s k : ℕ) : Prop where
  pages : ∀ n, bm.takePages g s n = .ok ((List.range n).map fun i =>
    if k + i < g.pps then some (s * g.pps + (k + i)) else none)
  space : ∃ r, LeaFtl.PageManager.pmRemainSpace g ⟨bm, s⟩ = .ok r ∧ ∀ n pages,
    bm.takePages g s n = .ok pages → pages.countP (·.isSome) = min n r
  bptr_lt : (bm.segment s).nowAssignedBptr < g.bps

section Runs

variable {g : Geometry} {cnt : Segment → ℤ} {p p' : SegmentPool} {s u : ℕ}

/-- What a call does to the pages of a segment. -/
theorem step_filled {op : SegmentOp} (hp : p.Assigned g) (hs : Filled g p.bm s u)
    (hop : Keeps s op) (h : step g cnt p op = .ok p') :
  Filled g p'.bm s (if op = .getPageAddr s then min (u + 1) g.pps else u)
  := by
  cases op with
  | getSegment use =>
      rw [if_neg (by simp)]
      cases use with
      | reserve =>
          simp only [step, bind_eq_ok] at h
          obtain ⟨⟨t, bm⟩, hget, hret⟩ := h
          cases hret
          unfold getSegReserve at hget
          split at hget
          · cases hget
          · cases hget
            exact hs.congr rfl rfl fun _ _ => rfl
      | active =>
          simp only [step, bind_eq_ok] at h
          obtain ⟨⟨t, bm⟩, hget, hret⟩ := h
          cases hret
          unfold getSegActive at hget
          split at hget
          · cases hget
          · cases hget
            exact hs.congr rfl rfl fun _ _ => rfl
  | changeReserveToActive t =>
      rw [if_neg (by simp)]
      simp only [step, bind_eq_ok, require_eq_ok] at h
      obtain ⟨_, -, hret⟩ := h
      cases hret
      exact hs.congr rfl rfl fun _ _ => rfl
  | getGcTarget t =>
      rw [if_neg (by simp)]
      simp only [step, bind_eq_ok] at h
      obtain ⟨bm, hget, hret⟩ := h
      cases hret
      simp only [BlockManager.getGcTarget, bind_eq_ok] at hget
      obtain ⟨-, -, -, -, hret⟩ := hget
      cases hret
      refine hs.congr rfl rfl ?_
      intro j _
      dsimp only
      split
      · apply fullInvalidCheck_nowAssignedPptr _
      · rfl
  | insertGcTarget t =>
      rw [if_neg (by simp)]
      simp only [step, bind_eq_ok, require_eq_ok] at h
      obtain ⟨_, -, hret⟩ := h
      cases hret
      exact hs.congr rfl rfl fun _ _ => rfl
  | trimSegment t =>
      rw [if_neg (by simp)]
      simp only [step, bind_eq_ok, require_eq_ok] at h
      obtain ⟨_, -, hret⟩ := h
      cases hret
      apply hs.trimSegment_of_ne
      rintro rfl
      apply hop rfl
  | bitSet q =>
      rw [if_neg (by simp)]
      cases h
      apply hs.bitSet q
  | bitUnset q =>
      rw [if_neg (by simp)]
      cases h
      apply hs.bitUnset q
  | setOob lbas ppa =>
      rw [if_neg (by simp)]
      cases h
      apply hs.setOob lbas ppa
  | getPageAddr t =>
      simp only [step, bind_eq_ok] at h
      obtain ⟨⟨page, bm⟩, hget, hret⟩ := h
      cases hret
      by_cases hst : t = s
      · subst hst
        rw [if_pos rfl]
        obtain ⟨bm', hget', hfilled⟩ := hs.getPageAddr
        cases hget.symm.trans hget'
        apply hfilled
      · rw [if_neg (by simp [hst])]
        obtain ⟨v, hv, -⟩ := hp t
        rcases Nat.lt_or_ge v g.pps with hlt | hge
        · cases hget.symm.trans (hv.getPageAddr_next hlt)
          apply hs.assignPage_of_ne (Ne.symm hst) hlt
        · obtain rfl : v = g.pps := Nat.le_antisymm hv.le hge
          cases hget.symm.trans hv.getPageAddr_full
          apply hs

theorem step_assigned {op : SegmentOp} (hp : p.Assigned g) (hop : HandedOut p op)
    (h : step g cnt p op = .ok p') :
  p'.Assigned g
  := by
  intro s
  by_cases htrim : op = .trimSegment s
  · subst htrim
    simp only [step, bind_eq_ok, require_eq_ok] at h
    obtain ⟨_, -, hret⟩ := h
    cases hret
    use 0, filled_trimSegment s, fun _ => rfl
  · obtain ⟨u, hu, hfree⟩ := hp s
    refine ⟨_, step_filled hp hu htrim h, ?_⟩
    intro hmem
    have hmem' : s ∈ p.bm.freeSegmentQ := by
      by_contra hnot
      apply step_notMem_free htrim hnot h hmem
    rw [if_neg]
    · apply hfree hmem'
    · rintro rfl
      apply hop hmem'

theorem assigned_create (g : Geometry) :
  (create g).Assigned g
  := fun s => ⟨0, filled_create s, fun _ => rfl⟩

/-- A segment that is free gives its pages in order after it has been handed out, until it is
erased. -/
theorem run_filled {calls : List SegmentOp} (hp : p.Assigned g) (hs : s ∈ p.bm.freeSegmentQ)
    (hcalls : .trimSegment s ∉ calls) (hguard : Guarded (step g cnt) HandedOut p calls)
    (h : run (step g cnt) p calls = .ok p') :
  Filled g p'.bm s (min (calls.count (.getPageAddr s)) g.pps)
  := by
  have hstart : Filled g p.bm s (min 0 g.pps) := by
    obtain ⟨u, hu, hfree⟩ := hp s
    rw [hfree hs] at hu
    rw [Nat.zero_min]
    apply hu
  have hkeeps : Guarded (step g cnt) (fun _ op => Keeps s op) p calls := by
    apply guarded_of_forall
    rintro op hop _ rfl
    apply hcalls hop
  have hkeep : ∀ hist p op p',
      Assigned g p ∧ Filled g p.bm s (min (hist.count (.getPageAddr s)) g.pps) →
      HandedOut p op ∧ Keeps s op → step g cnt p op = .ok p' →
      Assigned g p' ∧ Filled g p'.bm s (min ((hist ++ [op]).count (.getPageAddr s)) g.pps) := by
    rintro hist p op p' ⟨hp, hfilled⟩ ⟨hhanded, hkeep⟩ hstep
    use step_assigned hp hhanded hstep
    have hnext := step_filled hp hfilled hkeep hstep
    rw [List.count_append, List.count_singleton]
    by_cases hop : op = .getPageAddr s
    · rw [if_pos hop] at hnext
      rw [if_pos (by rw [hop]; exact beq_self_eq_true _)]
      have hmin : min (min (hist.count (.getPageAddr s)) g.pps + 1) g.pps
          = min (hist.count (.getPageAddr s) + 1) g.pps := by omega
      rw [hmin] at hnext
      apply hnext
    · rw [if_neg hop] at hnext
      rw [if_neg (by simpa using hop), Nat.add_zero]
      apply hnext
  apply (run_invariant _ hkeep (h := []) ⟨hp, hstart⟩ (hguard.and hkeeps) h).2

/-- A segment is free in some state, and is not erased in what follows.  Then its pages are
given in the order of their addresses and no others, and the space that is left is the number
of pages that further calls give. -/
theorem getPageAddr_sequential {ops calls : List SegmentOp}
    (hops : Guarded (step g cnt) HandedOut (create g) ops)
    (hrun : run (step g cnt) (create g) ops = .ok p) (hs : s ∈ p.bm.freeSegmentQ)
    (hcalls : .trimSegment s ∉ calls) (hguard : Guarded (step g cnt) HandedOut p calls)
    (hrun' : run (step g cnt) p calls = .ok p') :
  Sequential g p'.bm s (calls.count (.getPageAddr s))
  := by
  have hp : p.Assigned g := run_preserves (fun p => p.Assigned g)
    (fun p op p' hp hop hstep => step_assigned hp hop hstep) (assigned_create g) hops hrun
  have hfilled := run_filled hp hs hcalls hguard hrun'
  refine ⟨fun n => hfilled.takePages n, ⟨_, LeaFtl.pmRemainSpace_eq hfilled, ?_⟩, hfilled.bptr_lt⟩
  intro n pages hpages
  cases hpages.symm.trans (hfilled.takePages n)
  rw [countP_nthPage]
  omega

/-- Two segments of two blocks with two pages each. -/
def fourPages : Geometry := ⟨2, 2, 2, Nat.two_pos, Nat.two_pos⟩

theorem getPageAddr_sequential_fourPages :
  ∃ p', run (step fourPages fun _ => 0) (create fourPages)
      [.getSegment .active, .getPageAddr 0, .setOob [7] 0, .getPageAddr 0, .getPageAddr 0] = .ok p'
    ∧ Sequential fourPages p'.bm 0 3
  := by
  have hguard : Guarded (step fourPages fun _ => 0) HandedOut (create fourPages)
      [.getSegment .active, .getPageAddr 0, .setOob [7] 0, .getPageAddr 0, .getPageAddr 0] := by
    refine ⟨trivial, ?_, trivial, ?_, ?_, trivial⟩
    all_goals change (0 : ℕ) ∉ [1]
    all_goals decide
  have hstart : Guarded (step fourPages fun _ => 0) HandedOut (create fourPages) [] := trivial
  exact ⟨_, rfl, getPageAddr_sequential hstart rfl
    (List.mem_range.mpr (by decide)) (by decide) hguard rfl⟩

end Runs

end SegmentPool

end AppL
